import Threaded.Program
import Threaded.Proofs.Codes
import Threaded.Proofs.Conversation
import Threaded.Proofs.Lockstep

/-!
# The transcript of the program

The lines given as options are executed one after the other by one machine, and the program says on
the second stream what went wrong in them, and nothing else.  Then the same machine holds the
conversation, on the first stream.  So neither the second stream nor the exit code depends on the
input.

The program takes what a line prints off the console before it goes on.  That is no difference to
the machine: no operation of the standard set looks at the console, so what was printed earlier
stays in front of what is printed next and changes nothing else (`Machine.exec_printed`).
-/

namespace Threaded

/-! ## What was printed before -/

namespace Machine

variable {m m' : Machine} {fuel fuel' : Nat} {line : String}

/-- The machine with a text in front of what it has printed. -/
def printed (text : String) (m : Machine) : Machine :=
  { m with bench := { m.bench with console := text ++ m.bench.console } }

/-- What is taken off the console can be put back. -/
theorem printed_clearConsole (m : Machine) : m.clearConsole.printed m.console = m := by
  unfold printed clearConsole
  rw [String.append_empty]
  rfl

/-- Where nothing is printed there is nothing to clear. -/
theorem clearConsole_of_console_eq (h : m.console = "") : m.clearConsole = m := by
  rcases m with ⟨limits, dict, stack, console⟩
  obtain rfl : console = "" := h
  rfl

/-- The two machines are in step, one behind nothing and one behind the text. -/
theorem beside_printed (text : String) (m : Machine) :
    Machine.Beside "" text m.dict m.dict m (m.printed text) where
  left := rfl
  right := rfl
  limits := rfl
  bench := ⟨rfl, m.bench.console, String.empty_append.symm, rfl⟩

/-- Machines in step over one dictionary differ in the text alone. -/
theorem Beside.eq_printed {text : String} {d : Dict} (h : Machine.Beside "" text d d m m') :
    m' = m.printed text := by
  obtain ⟨limits, dict, stack, console⟩ := m
  obtain ⟨limits', dict', stack', console'⟩ := m'
  obtain ⟨hleft, hright, hlimits, hstack, said, hconsole, hconsole'⟩ := h
  obtain rfl : dict = dict' := hleft.trans hright.symm
  obtain rfl : limits = limits' := hlimits
  obtain rfl : stack = stack' := hstack
  obtain rfl : console = said := hconsole.trans String.empty_append
  obtain rfl : console' = text ++ console := hconsole'
  rfl

/-- **A word does not look at what was printed.** -/
theorem run_printed (hsound : m.dict.Sound Primitive.Standard) (text : String) (w : Word)
    (fuel : Nat) : (m.printed text).run fuel w =
      (m.run fuel w).map fun (r, m') => (r, m'.printed text) := by
  cases hc : Jump.check m.dict w.body with
  | error e =>
    have hcheck : Jump.check (m.printed text).dict w.body = .error e := hc
    unfold run framesOf
    rw [hc, hcheck]
    rfl
  | ok =>
    have hbeside : Option.Rel (Ending.Beside "" text m.dict m.dict) (m.run fuel w)
        ((m.printed text).run fuel w) :=
      run_beside (hsound.matches_old (.refl _)) (Dict.forall₂_old_of_check hc)
        (beside_printed text m) fuel
    generalize m.run fuel w = x, (m.printed text).run fuel w = y at hbeside
    cases hbeside with
    | none => rfl
    | some hend => exact congrArg some (Prod.ext hend.result.symm hend.machine.eq_printed)

/-- Compiling does not look at what was printed. -/
theorem compile_printed (text : String) (m : Machine) (line : String) :
    (m.printed text).compile line = ((m.compile line).1, (m.compile line).2.printed text) := by
  unfold compile
  dsimp only [printed]
  split <;> rfl

/-- **A line does not look at what was printed.** -/
theorem exec_printed (hsound : m.dict.Sound Primitive.Standard) (text : String) (line : String)
    (fuel : Nat) : (m.printed text).exec fuel line =
      (m.exec fuel line).map fun (r, m') => (r, m'.printed text) := by
  have hcompiled : (m.compile line).2.dict.Sound Primitive.Standard :=
    hsound.extendsUnnamed (compile_extendsUnnamed m line)
  unfold exec
  rw [compile_printed]
  rcases hc : m.compile line with ⟨e | (_ | w), m₁⟩
  · rfl
  · rfl
  · rw [hc] at hcompiled
    dsimp only
    rw [run_printed hcompiled, Option.map_map, Option.map_map]
    rfl

/-- The dictionary of the standard set stays sound when a line is executed. -/
theorem exec_sound (hsound : m.dict.Sound Primitive.Standard) {r : Except Error Cell}
    (h : m.exec fuel line = some (r, m')) : m'.dict.Sound Primitive.Standard := by
  have hobey : m.obey fuel (.exec line) = some (r.map .code, m') := by
    rw [obey, h]
    rfl
  exact (obey_develops (fun _ => trivial) (.of_primitives_eq_nil rfl) hobey).sound hsound

/-! ## Lines executed in turn -/

/-- Executes lines one after the other, whatever comes of them: what comes of each, and the
machine in the end. -/
def execEach (fuel : Nat) (m : Machine) : List String → Option (List (Except Error Cell) × Machine)
  | [] => some ([], m)
  | line :: rest =>
    match m.exec fuel line with
    | none => none
    | some (r, m) => (m.execEach fuel rest).map fun (rs, m) => (r :: rs, m)

/-- A line is executed before the others. -/
theorem execEach_cons {r : Except Error Cell} (h : m.exec fuel line = some (r, m'))
    (rest : List String) : m.execEach fuel (line :: rest) =
      (m'.execEach fuel rest).map fun (rs, m'') => (r :: rs, m'') := by
  rw [execEach, h]

/-- More fuel does not change what lines come to. -/
theorem execEach_mono {o : List (Except Error Cell) × Machine} (hle : fuel ≤ fuel') :
    {lines : List String} → {m : Machine} → m.execEach fuel lines = some o →
      m.execEach fuel' lines = some o := by
  intro lines
  induction lines generalizing o with
  | nil => exact id
  | cons line rest ih =>
    intro m h
    cases hexec : m.exec fuel line with
    | none =>
      rw [execEach, hexec] at h
      cases h
    | some first =>
      rw [execEach_cons hexec] at h
      rw [execEach_cons (exec_mono hle hexec)]
      obtain ⟨others, hrest, ho⟩ := Option.map_eq_some_iff.1 h
      rw [ih hrest, Option.map_some, ho]

/-- Lines come to one thing at most. -/
theorem execEach_unique {lines : List String} {o o' : List (Except Error Cell) × Machine}
    (h : m.execEach fuel lines = some o) (h' : m.execEach fuel' lines = some o') : o = o' := by
  have hmax := execEach_mono (Nat.le_max_left fuel fuel') h
  rw [execEach_mono (Nat.le_max_right fuel fuel') h'] at hmax
  exact (Option.some.inj hmax).symm

/-- Lines do not look at what was printed before them. -/
theorem execEach_printed (text : String) (fuel : Nat) (lines : List String) {m : Machine}
    (hsound : m.dict.Sound Primitive.Standard) :
    (m.printed text).execEach fuel lines =
      (m.execEach fuel lines).map fun (rs, m') => (rs, m'.printed text) := by
  induction lines generalizing m with
  | nil => rfl
  | cons line rest ih =>
    have hfirst := exec_printed hsound text line fuel
    cases hexec : m.exec fuel line with
    | none =>
      rw [hexec] at hfirst
      rw [execEach, execEach, hfirst, hexec]
      rfl
    | some first =>
      rw [hexec, Option.map_some] at hfirst
      rw [execEach_cons hfirst, execEach_cons hexec, ih (exec_sound hsound hexec), Option.map_map,
        Option.map_map]
      rfl

end Machine

/-! ## Nothing is logged -/

namespace Log.Filter

/-- The filter of a program that is not given one. -/
def unasked : Filter :=
  [⟨none, Level.warn.rank⟩]

/-- This is the filter that the default text names. -/
theorem ofText_warn : ofText "warn" = .ok unasked :=
  rfl

/-- It lets through nothing that happens in a line. -/
theorem followsLines_unasked : unasked.followsLines = false :=
  rfl

/-- Every event is finer than a warning. -/
theorem admits_unasked (e : Event) : unasked.admits e = false := by
  cases e <;> rfl

end Log.Filter

namespace Console

variable {f : Log.Filter} {fuel : Nat} {m m' : Machine} {t : Transcript}

/-- Without a log, the transcript of an execution is what was printed. -/
theorem execute_of_quiet (hf : f.followsLines = false) (fuel : Nat) (m : Machine) (line : String) :
    execute f fuel m line = (m.exec fuel line).map fun (r, after) =>
      (r, .out after.console, after.clearConsole) := by
  unfold execute lineLog
  rw [hf]
  congr 1

/-- An answer is on the first stream. -/
theorem stderr_of_answer (hf : f.followsLines = false) {request : Request}
    (h : answer f fuel m request = some (t, m')) : t.stderr = "" := by
  cases request with
  | stack | words | see =>
    cases h
    rfl
  | exec line =>
    rw [answer, execute_of_quiet hf] at h
    simp only [Option.map_map, Option.map_eq_some_iff] at h
    obtain ⟨o, _, heq⟩ := h
    cases heq
    exact String.append_empty

/-- **The conversation says nothing on the second stream.** -/
theorem stderr_of_converse (hf : f.followsLines = false) (lines : List (List UInt8))
    (h : converse f fuel m lines = some (t, m')) : t.stderr = "" := by
  induction lines generalizing m t with
  | nil =>
    cases h
    rfl
  | cons line rest ih =>
    rw [converse] at h
    split at h
    · cases h
      rfl
    · split at h
      · cases h
      · next u m₁ ha =>
        obtain ⟨⟨v, m₂⟩, hrest, heq⟩ := Option.map_eq_some_iff.1 h
        cases heq
        show u.stderr ++ v.stderr = ""
        rw [stderr_of_answer hf ha, ih hrest, String.append_empty]

end Console

/-! ## What the options ask for -/

/-- An option that is not given has no value. -/
theorem Options.value?_eq_none {o : Options} {s : Switch} (h : o.has s = false) :
    o.value? s = none := by
  have hvalues : o.values s = [] := by
    rw [values, List.map_eq_nil_iff, List.filter_eq_nil_iff]
    exact List.any_eq_false.1 h
  rw [value?, hvalues, List.head?_nil]

/-- What arguments ask for that parse, name no log and want no help. -/
theorem Settings.ofArguments_eq {args : List String} {o : Options} {limits : Limits}
    (hparse : Options.ofArguments args = .ok o) (hlog : o.has .log = false)
    (hhelp : o.has .help = false) (hlimits : limitsOf o = .ok limits) :
    ofArguments args = .ok ⟨limits, .unasked, o.values .line, o.has .quiet⟩ := by
  have hfilter : filterOf o = .ok .unasked := by
    unfold filterOf
    rw [Options.value?_eq_none hlog]
    dsimp only [Option.getD_none]
    rw [Log.Filter.ofText_warn]
  unfold ofArguments
  rw [hparse]
  dsimp only
  rw [hhelp, hfilter, hlimits]
  rfl

namespace Program

/-! ## The given lines -/

/-- The reports of some outcomes, each in a line of its own. -/
def reports (rs : List (Except Error Cell)) : String :=
  String.join ((rs.filterMap report).map (· ++ "\n"))

/-- What is said about one line and then about the others. -/
theorem line_append (r : Except Error Cell) (first others : String)
    (rs : List (Except Error Cell)) :
    (match report r with
      | some text => Transcript.out first ++ .err (text ++ "\n")
      | none => .out first) ++ ⟨others, reports rs⟩ =
      (⟨first ++ others, reports (r :: rs)⟩ : Transcript) := by
  unfold reports
  cases hr : report r with
  | none =>
    rw [List.filterMap_cons_none hr]
    exact congrArg (Transcript.mk _) String.empty_append
  | some text =>
    rw [List.filterMap_cons_some hr, List.map_cons, String.join_cons]
    show Transcript.mk (first ++ "" ++ others) ("" ++ (text ++ "\n") ++ _) = _
    rw [String.append_empty, String.empty_append]

/-- A line failed if this one did or if one of the others did. -/
theorem isSome_or_reported (r : Except Error Cell) (rs : List (Except Error Cell)) :
    ((report r).isSome || !(rs.filterMap report).isEmpty) =
      !((r :: rs).filterMap report).isEmpty := by
  cases hr : report r with
  | none =>
    rw [List.filterMap_cons_none hr]
    rfl
  | some text =>
    rw [List.filterMap_cons_some hr]
    rfl

/-- One if there is something to report, and otherwise zero. -/
def exitCode (rs : List (Except Error Cell)) : Nat :=
  if (rs.filterMap report).isEmpty then 0 else 1

/-- **The given lines are executed by one machine.** -/
theorem executeAll_eq {f : Log.Filter} (hf : f.followsLines = false) (fuel : Nat)
    (lines : List String) {m : Machine} (hsound : m.dict.Sound Primitive.Standard)
    (hconsole : m.console = "") :
    executeAll f fuel m lines = (m.execEach fuel lines).map fun (rs, m') =>
      (!(rs.filterMap report).isEmpty, ⟨m'.console, reports rs⟩, m'.clearConsole) := by
  induction lines generalizing m with
  | nil =>
    rw [executeAll, Machine.execEach, Option.map_some]
    dsimp only
    rw [hconsole, Machine.clearConsole_of_console_eq hconsole]
    rfl
  | cons line rest ih =>
    rw [executeAll, Console.execute_of_quiet hf]
    cases hexec : m.exec fuel line with
    | none =>
      rw [Machine.execEach, hexec]
      rfl
    | some first =>
      obtain ⟨r, m₁⟩ := first
      have hsound₁ : m₁.dict.Sound Primitive.Standard := Machine.exec_sound hsound hexec
      -- the others start from a cleared console here, and behind what this line printed there
      have hrest := Machine.execEach_printed m₁.console fuel rest (m := m₁.clearConsole) hsound₁
      rw [Machine.printed_clearConsole] at hrest
      rw [Machine.execEach_cons hexec, hrest]
      simp only [Option.map_some, ih (m := m₁.clearConsole) hsound₁ rfl, Option.map_map]
      congr 1
      funext o
      obtain ⟨rs, m'⟩ := o
      have hsaid := line_append r m₁.console m'.console rs
      exact Prod.ext (isSome_or_reported r rs) (Prod.ext hsaid rfl)

/-! ## The whole program -/

/-- The conversation on the first stream, if there is one. -/
def talk (quiet : Bool) (fuel : Nat) (m : Machine) (input : List UInt8) :
    Option (String × Machine) :=
  if quiet then some ("", m) else Console.said .unasked fuel m input

/-- No event is noted. -/
theorem note_unasked (e : Log.Event) : note .unasked e = {} := by
  have hnone : #[e].filter Log.Filter.unasked.admits = #[] := by
    simp [Log.Filter.admits_unasked]
  unfold note
  rw [hnone]
  rfl

/-- The conversation of the program is the one on the first stream. -/
theorem conversation_eq {s : Settings} (hs : s.filter = .unasked) (fuel : Nat) (m : Machine)
    (input : List UInt8) : conversation s fuel m input =
      (talk s.quiet fuel m input).map fun (text, m') => (.out text, m') := by
  unfold conversation talk
  rw [hs]
  split
  · rfl
  · unfold Console.said
    rw [Option.map_map]
    cases hsaid : Console.converse .unasked fuel m (Console.lines input) with
    | none => rfl
    | some o =>
      obtain ⟨⟨stdout, stderr⟩, m'⟩ := o
      obtain rfl : stderr = "" := Console.stderr_of_converse Log.Filter.followsLines_unasked _ hsaid
      rfl

/-- What a program without a log leaves behind: `m₀` is the machine it loads, `given` are the lines
given as options, and `quiet` is whether there is no conversation. -/
structure Transcribed (args : List String) (given : List String) (quiet : Bool) (m₀ : Machine) :
    Prop where
  /-- One machine executes the given lines and then holds the conversation.  The second stream
  has the reports of the given lines and nothing else. -/
  run (fuel : Nat) (input : List UInt8) :
    Program.run fuel args input =
      (m₀.execEach fuel given).bind fun (rs, m) =>
        (talk quiet fuel m.clearConsole input).map fun (text, _) =>
          ⟨exitCode rs, ⟨m.console ++ text, reports rs⟩⟩
  /-- The program fails if a given line failed, and not otherwise. -/
  exit {fuel : Nat} {input : List UInt8} {out : Output} :
    Program.run fuel args input = some out →
    ∃ rs m, m₀.execEach fuel given = some (rs, m) ∧
      (out.exit = 1 ↔ ∃ r ∈ rs, r ≠ .ok 0) ∧ (out.exit = 0 ↔ ∀ r ∈ rs, r = .ok 0)
  /-- The input does not matter to the second stream and to the exit code. -/
  input {fuel fuel' : Nat} {input input' : List UInt8} {out out' : Output} :
    Program.run fuel args input = some out → Program.run fuel' args input' = some out' →
    out.exit = out'.exit ∧ out.transcript.stderr = out'.transcript.stderr
  /-- The conversation hangs together. -/
  talk (fuel : Nat) : Console.Conversational .unasked fuel
  /-- Every input that is not UTF-8 has a first line that is not. -/
  first (input : List UInt8) : ¬ Text.Utf8.WellFormed input →
    ∃ front line rest, Console.FirstUnreadable input front line rest

/-- The exit code is zero exactly if all lines succeeded. -/
theorem exitCode_eq_zero_iff {rs : List (Except Error Cell)} :
    exitCode rs = 0 ↔ ∀ r ∈ rs, r = .ok 0 := by
  have hsilent : (rs.filterMap report).isEmpty = true ↔ ∀ r ∈ rs, r = .ok 0 := by
    rw [List.isEmpty_iff, List.filterMap_eq_nil_iff]
    exact forall₂_congr fun _ _ => report_eq_none_iff
  unfold exitCode
  rw [← hsilent]
  split <;> simp [*]

/-- The exit code is one exactly if a line failed. -/
theorem exitCode_eq_one_iff {rs : List (Except Error Cell)} :
    exitCode rs = 1 ↔ ∃ r ∈ rs, r ≠ .ok 0 := by
  have hone : exitCode rs = 1 ↔ ¬ exitCode rs = 0 := by
    unfold exitCode
    split <;> simp
  rw [hone, exitCode_eq_zero_iff]
  push Not
  rfl

/-- **The whole program**: the given lines, then the conversation of the machine that they leave. -/
theorem run_eq {args : List String} {s : Settings} {m₀ : Machine}
    (hsettings : Settings.ofArguments args = .ok s) (hs : s.filter = .unasked)
    (hload : (Machine.boot s.limits).load = (.ok (), m₀)) (fuel : Nat) (input : List UInt8) :
    Program.run fuel args input =
      (m₀.execEach fuel s.lines).bind fun (rs, m) =>
        (talk s.quiet fuel m.clearConsole input).map fun (text, _) =>
          ⟨exitCode rs, ⟨m.console ++ text, reports rs⟩⟩ := by
  have hloaded : m₀ = (Machine.boot s.limits).load.2 := by rw [hload]
  have hsound : m₀.dict.Sound Primitive.Standard := by
    rw [hloaded]
    exact (Machine.Reachable.load (.of_primitives_eq_nil rfl) s.limits).sound fun _ h => h
  have hconsole : m₀.console = "" := by
    rw [hloaded, Machine.console, Machine.load, Machine.bench_defwords]
    rfl
  unfold run work
  rw [hsettings]
  dsimp only
  rw [hload]
  dsimp only
  rw [executeAll_eq (hs ▸ Log.Filter.followsLines_unasked) fuel _ hsound hconsole]
  cases m₀.execEach fuel s.lines with
  | none => rfl
  | some o =>
    obtain ⟨rs, m⟩ := o
    have hexit : (if !(rs.filterMap report).isEmpty then 1 else 0) = exitCode rs := by
      unfold exitCode
      cases (rs.filterMap report).isEmpty <;> rfl
    simp only [Option.map_some, Option.bind_some, conversation_eq hs, hs, note_unasked,
      Option.map_map, hexit]
    congr 1
    funext talked
    refine congrArg (Output.mk (exitCode rs)) ?_
    show ({} : Transcript) ++ (⟨m.console, reports rs⟩ ++ Transcript.out talked.1 ++ {}) = _
    rw [Transcript.empty_append, Transcript.append_empty]
    exact congrArg (Transcript.mk _) String.append_empty

/-- **The transcript of a program without a log.** -/
theorem transcribed {args : List String} {o : Options} {limits : Limits} {m₀ : Machine}
    (hparse : Options.ofArguments args = .ok o) (hlog : o.has .log = false)
    (hhelp : o.has .help = false) (hlimits : Settings.limitsOf o = .ok limits)
    (hload : (Machine.boot limits).load = (.ok (), m₀)) :
    Transcribed args (o.values .line) (o.has .quiet) m₀ := by
  have hrun := run_eq (Settings.ofArguments_eq hparse hlog hhelp hlimits) rfl hload
  have hsaid : ∀ {fuel input out}, Program.run fuel args input = some out →
      ∃ rs m, m₀.execEach fuel (o.values .line) = some (rs, m) ∧
        out.exit = exitCode rs ∧ out.transcript.stderr = reports rs := by
    intro fuel input out h
    rw [hrun] at h
    obtain ⟨⟨rs, m⟩, hgiven, h⟩ := Option.bind_eq_some_iff.1 h
    obtain ⟨r, _, rfl⟩ := Option.map_eq_some_iff.1 h
    exact ⟨rs, m, hgiven, rfl, rfl⟩
  refine ⟨hrun, ?_, ?_, fun fuel => Console.conversational _ fuel, Console.exists_firstUnreadable⟩
  · intro fuel input out h
    obtain ⟨rs, m, hgiven, hexit, _⟩ := hsaid h
    rw [hexit]
    exact ⟨rs, m, hgiven, exitCode_eq_one_iff, exitCode_eq_zero_iff⟩
  · intro fuel fuel' input input' out out' h h'
    obtain ⟨rs, m, hgiven, hexit, hstderr⟩ := hsaid h
    obtain ⟨rs', m', hgiven', hexit', hstderr'⟩ := hsaid h'
    cases Machine.execEach_unique hgiven hgiven'
    exact ⟨hexit.trans hexit'.symm, hstderr.trans hstderr'.symm⟩

/-- Two given lines, the second of which fails, and a conversation. -/
theorem transcribed_given :
    Transcribed ["-e", "3 DUP MUL .", "-e", "frob"] ["3 DUP MUL .", "frob"] false
      (Machine.boot {}).load.2 :=
  have hload : (Machine.boot {}).load = (.ok (), (Machine.boot {}).load.2) := rfl
  transcribed (o := [(.line, "3 DUP MUL ."), (.line, "frob")]) rfl rfl rfl rfl hload

example : Program.run 10 ["-e", "3 DUP MUL .", "-e", "frob"] [0x2E, 0x73, 0x0A] =
    some ⟨1, ⟨"9 []\nCTRL-D\n", "error -1: bad token 0\n"⟩⟩ := by
  decide +kernel

end Program

end Threaded
