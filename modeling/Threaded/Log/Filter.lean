import Threaded.Log
import Threaded.Text.Cut
import Threaded.Text.Decimal

/-!
# Log filters

A filter is a list of directives between commas.  A directive sets the level up to which events
are let through, for every source (`debug`), for the sources whose name begins with a target
(`afi=debug`), or for a target without a limit (`afi`).  Of the directives that apply to an
event the one with the longest target decides, and of two with the same target the later one;
an event to which none applies is not let through.

A level is a word in either case or a number from zero, which is off, to five.
-/

namespace Threaded.Log

/-- Lets events of some sources through up to a level. -/
structure Directive where
  /-- How the name of the source must begin; `none` for every source. -/
  target : Option String
  /-- The rank of the last level let through, zero for none. -/
  rank : Nat
  deriving DecidableEq, Repr

/-- The directives of a filter, in the order in which they were given. -/
abbrev Filter := List Directive

namespace Filter

/-- Why a text is no filter. -/
inductive Mistake
  | badLevel
  | tooManyEquals
  deriving DecidableEq, Repr

/-- The mistake in words. -/
def Mistake.message : Mistake → String
  | badLevel =>
    "error parsing level filter: expected one of \"off\", \"error\", \"warn\", \"info\", "
      ++ "\"debug\", \"trace\", or a number 0-5"
  | tooManyEquals =>
    "invalid filter directive: too many '=' in filter directive, expected 0 or 1"

/-- The levels by name; no name at all stands for errors. -/
def levelNames : List (List Char × Nat) :=
  [("off".toList, 0), ("error".toList, 1), ("warn".toList, 2), ("info".toList, 3),
    ("debug".toList, 4), ("trace".toList, 5), ([], 1)]

/-- The rank a text gives as a level. -/
def rank? (cs : List Char) : Option Nat :=
  match Text.Decimal.count (String.ofList cs) with
  | .ok n => if n ≤ 5 then some n else none
  | .error _ => levelNames.lookup (cs.map Char.toLower)

/-- A directive: a level, a target with a level, or a target. -/
def directive (cs : List Char) : Except Mistake Directive :=
  match Text.partsAt '=' cs with
  | [target, level] =>
    match rank? level with
    | some rank => .ok ⟨some (String.ofList target), rank⟩
    | none => .error .badLevel
  | [] | [_] =>
    match rank? cs with
    | some rank => .ok ⟨none, rank⟩
    | none => .ok ⟨some (String.ofList cs), Level.trace.rank⟩
  | _ => .error .tooManyEquals

/-- The filter a text describes, or what is wrong with its first bad directive. -/
def ofText (text : String) : Except Mistake Filter :=
  (Text.partsAt ',' text.toList).mapM directive

end Filter

namespace Directive

/-- Whether a directive applies to a source. -/
def applies (d : Directive) (source : String) : Bool :=
  match d.target with
  | none => true
  | some target => (Text.behind? target.toList source.toList).isSome

/-- How much of a source a directive names. -/
def weight (d : Directive) : Nat :=
  match d.target with
  | none => 0
  | some target => target.length + 1

end Directive

namespace Filter

/-- The directive that decides about a source. -/
def deciding? (f : Filter) (source : String) : Option Directive :=
  (f.filter (·.applies source)).foldl
    (fun best d =>
      match best with
      | none => some d
      | some b => if d.weight < b.weight then some b else some d) none

/-- Whether an event is let through. -/
def admits (f : Filter) (e : Event) : Bool :=
  match f.deciding? e.source with
  | none => false
  | some d => e.level.rank ≤ d.rank

/-- Whether a filter can let events of a line through, all of which are finer than `info`. -/
def followsLines (f : Filter) : Bool :=
  f.any fun d => Level.info.rank < d.rank

end Filter

end Threaded.Log
