import Threaded.Error

/-!
# The report of a line

What a console says about a line that was executed: nothing when it succeeded, and otherwise
one text that reads the code back into the place it blames, or gives the message of an error
that was raised while the line ran.
-/

namespace Threaded

/-- The outcome of a line in words, `none` when it succeeded. -/
def report : Except Error Cell → Option String
  | .ok code =>
    if code = 0 then none
    else if 0 < code then some ("error " ++ code.render ++ ": token too long")
    else some ("error " ++ code.render ++ ": bad token " ++ (-code - 1 : Cell).render)
  | .error e => some ("error: " ++ e.message)

end Threaded
