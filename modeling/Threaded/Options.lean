import Threaded.Text.Cut

/-!
# Command-line options

Options are read from left to right.  An argument that begins with a dash and has more behind it
holds options: one letter after another, or behind two dashes a name, which may be followed by an
equals sign and a value.  An option that takes a value takes the rest of its argument, and if
there is none, the next argument, whatever that looks like.  Two dashes alone end the options;
every other argument is free and means nothing here.

Mistakes are reported where they stand, except for an option that is given too often, which is
found when all arguments have been read.
-/

namespace Threaded

/-- What can be asked for on the command line. -/
inductive Switch
  | stackSize
  | nameLen
  | maxDepth
  | line
  | quiet
  | log
  | help
  deriving DecidableEq, Repr

namespace Switch

/-- All options, in the order in which they are listed. -/
def all : List Switch :=
  [stackSize, nameLen, maxDepth, line, quiet, log, help]

/-- The name an option is known by in messages. -/
def label : Switch → String
  | stackSize => "s"
  | nameLen => "n"
  | maxDepth => "d"
  | line => "e"
  | quiet => "q"
  | log => "l"
  | help => "help"

/-- The option of a letter. -/
def ofLetter? : Char → Option Switch
  | 's' => some stackSize
  | 'n' => some nameLen
  | 'd' => some maxDepth
  | 'e' => some line
  | 'q' => some quiet
  | 'l' => some log
  | 'h' => some help
  | _ => none

/-- A name of one letter is that letter. -/
def ofName? : List Char → Option Switch
  | [c] => ofLetter? c
  | cs => if cs = "help".toList then some help else none

/-- Whether an option takes a value. -/
def takesValue : Switch → Bool
  | stackSize | nameLen | maxDepth | line | log => true
  | quiet | help => false

/-- Whether an option may be given more than once. -/
def repeats (s : Switch) : Bool :=
  s = line

end Switch

/-- What can be wrong with the arguments. -/
inductive OptionMistake
  | unrecognized (name : String)
  | missingValue (name : String)
  | unexpectedValue (name : String)
  | givenTwice (name : String)
  deriving DecidableEq, Repr

/-- The mistake in words. -/
def OptionMistake.message : OptionMistake → String
  | unrecognized name => "Unrecognized option: '" ++ name ++ "'"
  | missingValue name => "Argument to option '" ++ name ++ "' missing"
  | unexpectedValue name => "Option '" ++ name ++ "' does not take an argument"
  | givenTwice name => "Option '" ++ name ++ "' given more than once"

/-- The options given, in order; one that takes no value has the empty text. -/
abbrev Options := List (Switch × String)

namespace Options

/-- The options of one argument, and one of them that still needs its value. -/
structure Reading where
  given : Options
  waiting : Option Switch := none

/-- Reads letters, one option each, up to the first that takes a value. -/
def readLetters : List Char → Except OptionMistake Reading
  | [] => .ok { given := [] }
  | c :: cs =>
    match Switch.ofLetter? c with
    | none => .error (.unrecognized (String.singleton c))
    | some s =>
      if s.takesValue then
        if cs.isEmpty then .ok { given := [], waiting := some s }
        else .ok { given := [(s, String.ofList cs)] }
      else (readLetters cs).map fun r => { r with given := (s, "") :: r.given }

/-- Reads a name with or without a value. -/
def readName (cs : List Char) : Except OptionMistake Reading :=
  let name := cs.takeWhile (· ≠ '=')
  let value := (Text.behind? ['='] (cs.dropWhile (· ≠ '='))).map String.ofList
  match Switch.ofName? name with
  | none => .error (.unrecognized (String.ofList name))
  | some s =>
    match s.takesValue, value with
    | true, some v => .ok { given := [(s, v)] }
    | true, none => .ok { given := [], waiting := some s }
    | false, some _ => .error (.unexpectedValue (String.ofList name))
    | false, none => .ok { given := [(s, "")] }

/-- Reads an argument, `none` if it ends the options. -/
def readArgument (arg : String) : Except OptionMistake (Option Reading) :=
  match arg.toList with
  | ['-', '-'] => .ok none
  | '-' :: '-' :: name => (readName name).map some
  | '-' :: c :: letters => (readLetters (c :: letters)).map some
  | _ => .ok (some { given := [] })

/-- Reads all arguments up to the first mistake. -/
def readAll : List String → Except OptionMistake Options
  | [] => .ok []
  | arg :: rest =>
    match readArgument arg with
    | .error e => .error e
    | .ok none => .ok []
    | .ok (some r) =>
      match r.waiting with
      | none => (readAll rest).map (r.given ++ ·)
      | some s =>
        match rest with
        | [] => .error (.missingValue s.label)
        | value :: rest => (readAll rest).map fun o => r.given ++ (s, value) :: o

/-- The values given for an option. -/
def values (o : Options) (s : Switch) : List String :=
  (o.filter (·.1 = s)).map (·.2)

/-- Whether an option was given. -/
def has (o : Options) (s : Switch) : Bool :=
  o.any (·.1 = s)

/-- The first value that was given for an option. -/
def value? (o : Options) (s : Switch) : Option String :=
  (o.values s).head?

/-- The first option, as they are listed, that is given more often than it may be. -/
def surplus? (o : Options) : Option Switch :=
  Switch.all.find? fun s => !s.repeats && 1 < (o.values s).length

/-- The options of a command line. -/
def ofArguments (args : List String) : Except OptionMistake Options :=
  match readAll args with
  | .error e => .error e
  | .ok o =>
    match o.surplus? with
    | some s => .error (.givenTwice s.label)
    | none => .ok o

end Options

/-- The text that explains the options. -/
def usage : String :=
  "Usage: afi [options]\n\nOptions:\n"
    ++ "    -s SIZE             set value stack size\n"
    ++ "    -n LEN              set maximum name length\n"
    ++ "    -d DEPTH            set maximum nesting depth\n"
    ++ "    -e LINE             execute a line before the console starts\n"
    ++ "    -q                  don't start the console\n"
    ++ "    -l TARGETS          log filter, e.g. afi=debug\n"
    ++ "    -h, --help          print this help\n"

end Threaded
