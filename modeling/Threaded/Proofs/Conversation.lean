import Mathlib.Data.List.Basic
import Threaded.Console
import Threaded.Proofs.Utf8

/-!
# Conversations

What the console says to an input is said line by line.  So an input may be cut behind any line
feed: what is said to the front does not depend on what comes behind it, and what is said to the
rest depends on the front through the machine alone that the front has left
(`Conversational.cut`).  That leaves what is said to one line, and to none.

A line that only looks is answered by what it asks for and leaves the machine as it is, so whatever
is said behind it would be said without it too.  Every other line is executed as it stands, and is
answered by what was printed and by its report.  A line that is not UTF-8 is the last one, and what
stands behind it is never looked at.  And when no answer comes, it is because the execution of one
line, on the machine that the lines before it have left, does not come to its end.
-/

namespace Threaded

namespace Transcript

/-- Where transcripts are put together first does not matter. -/
theorem append_assoc (a b c : Transcript) : a ++ b ++ c = a ++ (b ++ c) :=
  congrArg₂ Transcript.mk (String.append_assoc ..) (String.append_assoc ..)

/-- Nothing in front of a transcript. -/
theorem empty_append (t : Transcript) : ({} : Transcript) ++ t = t :=
  congrArg₂ Transcript.mk String.empty_append String.empty_append

/-- Nothing behind a transcript. -/
theorem append_empty (t : Transcript) : t ++ ({} : Transcript) = t :=
  congrArg₂ Transcript.mk String.append_empty String.append_empty

end Transcript

namespace Console

open Text.Utf8 (WellFormed)

/-! ## Lines -/

/-- Lines that are all ended: nothing, or something that ends in a line feed. -/
def Whole (input : List UInt8) : Prop :=
  ∀ b ∈ input.getLast?, b = 0x0A

/-- Lines that are all ended are none, or they have a last one. -/
theorem Whole.cases {input : List UInt8} (h : Whole input) :
    input = [] ∨ ∃ front, input = front ++ [0x0A] := by
  rcases List.eq_nil_or_concat' input with rfl | ⟨front, b, rfl⟩
  · exact .inl rfl
  · have hb : b = 0x0A := h b (by rw [List.getLast?_concat]; rfl)
    exact .inr ⟨front, by rw [hb]⟩

/-- A line with its line feed is ended. -/
theorem whole_line (line : List UInt8) : Whole (line ++ [0x0A]) := by
  intro b hb
  rw [List.getLast?_concat] at hb
  exact (Option.some.inj hb).symm

/-- Ended lines behind ended lines. -/
theorem Whole.append {a b : List UInt8} (ha : Whole a) (hb : Whole b) : Whole (a ++ b) := by
  rcases hb.cases with rfl | ⟨front, rfl⟩
  · rw [List.append_nil]
    exact ha
  · rw [← List.append_assoc]
    exact whole_line _

/-- Nothing has no lines. -/
theorem lines_nil : lines [] = [] :=
  rfl

/-- A line feed ends the lines in front of it. -/
theorem lines_append_cons (front behind : List UInt8) :
    lines (front ++ 0x0A :: behind) = Text.partsAt 0x0A front ++ lines behind := by
  have hparts := Text.partsAt_append_cons 0x0A front behind
  have hne := Text.partsAt_ne_nil 0x0A behind
  unfold lines
  dsimp only
  rw [hparts, List.getLast?_append, List.getLast?_eq_some_getLast hne, Option.some_or,
    List.dropLast_append_of_ne_nil hne]
  split <;> rfl

/-- **The lines of an input that is cut behind a line feed** are those of its two parts. -/
theorem lines_append {a : List UInt8} (h : Whole a) (b : List UInt8) :
    lines (a ++ b) = lines a ++ lines b := by
  rcases h.cases with rfl | ⟨front, rfl⟩
  · rfl
  · rw [lines_append_cons front [], lines_nil, List.append_nil, List.append_assoc,
      List.singleton_append, lines_append_cons]

/-- A line with its line feed is one line. -/
theorem lines_line {line : List UInt8} (h : 0x0A ∉ line) : lines (line ++ [0x0A]) = [line] := by
  rw [lines_append_cons, Text.partsAt_of_notMem h, lines_nil, List.append_nil]

/-- A line that is not empty counts even if nothing ends it. -/
theorem lines_unended {line : List UInt8} (hne : line ≠ []) (hmem : 0x0A ∉ line) :
    lines line = [line] := by
  unfold lines
  dsimp only
  rw [Text.partsAt_of_notMem hmem, if_neg (by simpa using hne)]

/-- What stands in front of a line feed, or of the end, is the first line. -/
theorem exists_lines_append {line rest : List UInt8} (hne : line ≠ []) (hmem : 0x0A ∉ line)
    (hrest : ∀ b ∈ rest.head?, b = 0x0A) : ∃ behind, lines (line ++ rest) = line :: behind := by
  cases rest with
  | nil =>
    refine ⟨[], ?_⟩
    rw [List.append_nil, lines_unended hne hmem]
  | cons b rest =>
    obtain rfl : b = 0x0A := hrest b rfl
    refine ⟨lines rest, ?_⟩
    rw [lines_append_cons, Text.partsAt_of_notMem hmem, List.singleton_append]

/-- One line of an input: `front` are the lines before it, all of them UTF-8, and `rest` is what
comes behind it. -/
structure LineOf (input front line rest : List UInt8) : Prop where
  split : input = front ++ line ++ rest
  whole : Whole front
  readable : WellFormed front
  unended : 0x0A ∉ line
  ended : ∀ b ∈ rest.head?, b = 0x0A

/-- The line that an input begins with. -/
theorem LineOf.head {input line rest : List UInt8} (hsplit : input = line ++ rest)
    (hmem : 0x0A ∉ line) (hrest : ∀ b ∈ rest.head?, b = 0x0A) : LineOf input [] line rest where
  split := hsplit
  whole := nofun
  readable := ⟨[], rfl⟩
  unended := hmem
  ended := hrest

/-- A line of an input is one behind another line too. -/
theorem LineOf.behind {first behind front line rest : List UInt8}
    (h : LineOf behind front line rest) (hfirst : WellFormed first) :
    LineOf (first ++ 0x0A :: behind) (first ++ [0x0A] ++ front) line rest where
  split := by
    rw [h.split]
    simp
  whole := (whole_line first).append h.whole
  readable := (hfirst.append (Text.Utf8.wellFormed_singleton (by decide))).append h.readable
  unended := h.unended
  ended := h.ended

/-- **Induction on the lines of an input.**  An input is one line that nothing ends, or a line in
front of an input. -/
theorem induction_on_lines {motive : List UInt8 → Prop}
    (last : ∀ line, 0x0A ∉ line → motive line)
    (cons : ∀ line behind, 0x0A ∉ line → motive behind → motive (line ++ 0x0A :: behind))
    (input : List UInt8) : motive input := by
  induction hlen : input.length using Nat.strongRecOn generalizing input with | _ n ih
  by_cases hmem : 0x0A ∈ input
  · obtain ⟨line, behind, rfl, hline⟩ := List.eq_append_cons_of_mem hmem
    have hshorter : behind.length < n := by
      rw [← hlen, List.length_append, List.length_cons]
      omega
    exact cons line behind hline (ih _ hshorter behind rfl)
  · exact last input hmem

/-! ## Lines that can be read -/

/-- What a line reads: the text whose UTF-8 is left of the line when the carriage returns and line
feeds at its end are taken off. -/
structure Reads (line : List UInt8) (text : String) : Prop where
  encoded : ∃ ends : List UInt8, line = Text.Utf8.encode text.toList ++ ends ∧
    ∀ b ∈ ends, b = 0x0D ∨ b = 0x0A
  bare : ∀ c ∈ text.toList.getLast?, c ≠ '\r' ∧ c ≠ '\n'

/-- The two bytes that a line ends with. -/
theorem isLineEnd_iff {b : UInt8} : isLineEnd b = true ↔ b = 0x0D ∨ b = 0x0A := by
  simp [isLineEnd]

/-- The bytes that a line ends with are characters. -/
theorem toNat_lt_of_isLineEnd {b : UInt8} (h : isLineEnd b = true) : b.toNat < 0x80 := by
  rcases isLineEnd_iff.1 h with rfl | rfl <;> decide

/-- Of the characters only the carriage return and the line feed end a line. -/
theorem isLineEnd_of_mem_encodeChar {c : Char} {b : UInt8} (hb : b ∈ String.utf8EncodeChar c)
    (h : isLineEnd b = true) : c = '\r' ∨ c = '\n' := by
  have hc : c.toNat = b.toNat :=
    Text.Utf8.toNat_eq_of_mem_encodeChar hb (toNat_lt_of_isLineEnd h)
  rcases isLineEnd_iff.1 h with rfl | rfl
  · exact .inl (Char.toNat_inj.1 hc)
  · exact .inr (Char.toNat_inj.1 hc)

/-- A text is bare of line ends behind exactly if its bytes are. -/
theorem isLineEnd_getLast?_encode {cs : List Char} :
    (∀ b ∈ (Text.Utf8.encode cs).getLast?, isLineEnd b = false) ↔
      ∀ c ∈ cs.getLast?, c ≠ '\r' ∧ c ≠ '\n' := by
  rcases List.eq_nil_or_concat' cs with rfl | ⟨front, c, rfl⟩
  · simp
  rw [Text.Utf8.encode_append, Text.Utf8.encode_cons, Text.Utf8.encode_nil, List.append_nil,
    List.getLast?_concat]
  cases hbytes : (String.utf8EncodeChar c).getLast? with
  | none =>
    have hsize := String.length_utf8EncodeChar c
    rw [List.getLast?_eq_none_iff.1 hbytes] at hsize
    exact absurd hsize.symm (Nat.ne_of_gt c.utf8Size_pos)
  | some b =>
    rw [List.getLast?_append, hbytes, Option.some_or]
    constructor
    · rintro hb c' ⟨rfl⟩
      have hend : isLineEnd b = false := hb b rfl
      -- each of the two characters is one byte, which is `b`
      constructor <;> rintro rfl <;> cases hbytes <;> cases hend
    · rintro hc b' ⟨rfl⟩
      rw [← Bool.not_eq_true]
      intro hend
      obtain ⟨hreturn, hfeed⟩ := hc c rfl
      exact (isLineEnd_of_mem_encodeChar (List.mem_of_getLast? hbytes) hend).elim hreturn hfeed

/-- **The text of a line is what the line reads.** -/
theorem lineText?_eq_some_iff {line : List UInt8} {text : String} :
    lineText? line = some text ↔ Reads line text := by
  have hdecode : lineText? line = some text ↔
      Text.dropEnd isLineEnd line = Text.Utf8.encode text.toList := by
    rw [lineText?, Option.map_eq_some_iff]
    constructor
    · rintro ⟨cs, hcs, rfl⟩
      rw [String.toList_ofList]
      exact (Text.Utf8.decode?_eq_some_iff.1 hcs).symm
    · intro hbytes
      exact ⟨text.toList, Text.Utf8.decode?_eq_some_iff.2 hbytes.symm, String.ofList_toList⟩
  rw [hdecode, Text.dropEnd_eq_iff]
  constructor
  · rintro ⟨ends, hline, hends, hlast⟩
    exact ⟨⟨ends, hline, fun b hb => isLineEnd_iff.1 (hends b hb)⟩,
      isLineEnd_getLast?_encode.1 hlast⟩
  · rintro ⟨⟨ends, hline, hends⟩, hbare⟩
    exact ⟨ends, hline, fun b hb => isLineEnd_iff.2 (hends b hb),
      isLineEnd_getLast?_encode.2 hbare⟩

/-- What ends a line does not matter to whether it can be read. -/
theorem wellFormed_append_lineEnd {line ends : List UInt8} (h : ∀ b ∈ ends, isLineEnd b = true) :
    WellFormed (line ++ ends) ↔ WellFormed line := by
  have hends : ∀ {ends : List UInt8}, (∀ b ∈ ends, isLineEnd b = true) → WellFormed ends := by
    intro ends h
    induction ends with
    | nil => exact ⟨[], rfl⟩
    | cons b ends ih =>
      obtain ⟨hb, hrest⟩ := List.forall_mem_cons.1 h
      exact (Text.Utf8.wellFormed_singleton (toNat_lt_of_isLineEnd hb)).append (ih hrest)
  cases ends with
  | nil => rw [List.append_nil]
  | cons b ends =>
    obtain ⟨hb, hrest⟩ := List.forall_mem_cons.1 h
    rw [Text.Utf8.wellFormed_append_cons_iff (toNat_lt_of_isLineEnd hb)]
    exact and_iff_left (hends hrest)

/-- **A line can be read exactly if it is UTF-8.** -/
theorem isSome_lineText?_iff {line : List UInt8} :
    (lineText? line).isSome = true ↔ WellFormed line := by
  have hcut : Text.dropEnd isLineEnd line = Text.dropEnd isLineEnd line := rfl
  obtain ⟨ends, hline, hends, -⟩ := Text.dropEnd_eq_iff.1 hcut
  rw [lineText?, Option.isSome_map, Option.isSome_iff_ne_none, ne_eq,
    Text.Utf8.decode?_eq_none_iff, not_not, ← wellFormed_append_lineEnd hends, ← hline]

/-- A line that is UTF-8 reads something. -/
theorem exists_reads {line : List UInt8} (h : WellFormed line) : ∃ text, Reads line text := by
  obtain ⟨text, htext⟩ := Option.isSome_iff_exists.1 (isSome_lineText?_iff.2 h)
  exact ⟨text, lineText?_eq_some_iff.1 htext⟩

/-- The lines of an input that is UTF-8 are UTF-8. -/
theorem wellFormed_of_mem_lines {input line : List UInt8} (h : WellFormed input)
    (hline : line ∈ lines input) : WellFormed line := by
  refine (Text.Utf8.wellFormed_iff_forall_mem_partsAt (b := 0x0A) (by decide)).1 h line ?_
  unfold lines at hline
  dsimp only at hline
  split at hline
  · exact List.dropLast_subset _ hline
  · exact hline

/-- The first line of an input that is not UTF-8. -/
structure FirstUnreadable (input front line rest : List UInt8) : Prop
    extends LineOf input front line rest where
  broken : ¬ WellFormed line

/-- **An input that is not UTF-8 has a first line that is not.** -/
theorem exists_firstUnreadable (input : List UInt8) :
    ¬ WellFormed input → ∃ front line rest, FirstUnreadable input front line rest := by
  induction input using induction_on_lines with
  | last line hmem =>
    exact fun hbroken => ⟨[], line, [], .head (List.append_nil line).symm hmem nofun, hbroken⟩
  | cons line behind hmem ih =>
    intro hbroken
    by_cases hread : WellFormed line
    · have hbehind : ¬ WellFormed behind := fun hb =>
        hbroken ((Text.Utf8.wellFormed_append_cons_iff (by decide)).2 ⟨hread, hb⟩)
      obtain ⟨front, line', rest, hfirst⟩ := ih hbehind
      exact ⟨_, line', rest, hfirst.toLineOf.behind hread, hfirst.broken⟩
    · exact ⟨[], line, 0x0A :: behind, .head rfl hmem (by simp), hread⟩

/-! ## What one line is answered -/

/-- A text that asks to look at something, whatever blanks stand around it: at the stack, at the
names, or at what stands behind a name. -/
def Looks (text : String) : Prop :=
  Text.trimmed text = ".s" ∨ Text.trimmed text = ".words" ∨
    ∃ name, Text.trimmed text = ".see " ++ name

/-- What a machine shows to a command that looks. -/
inductive Shows (m : Machine) : (command reply : String) → Prop
  | stack : Shows m ".s" (stackText m.bench.stack)
  | words : Shows m ".words" (wordsText m.dict)
  | see (name : String) : Shows m (".see " ++ name) (seeText m.dict (Text.trimmed name))

/-- What is said about a line that was executed: the text that has been printed, then the report, or
a word that all is well. -/
def response (r : Except Error Cell) (after : Machine) : String :=
  after.console ++ ((report r).getD " ok" ++ "\n")

section Answer

variable {f : Log.Filter} {fuel : Nat} {m m' : Machine} {t : Transcript} {text : String}

/-- **A text that looks is answered by what it asks for**, and the machine stays as it is. -/
theorem Looks.answer (h : Looks text) (f : Log.Filter) (fuel : Nat) (m : Machine) :
    ∃ reply, Shows m (Text.trimmed text) reply ∧
      Console.answer f fuel m (Request.ofLine text) = some (.out reply, m) := by
  unfold Request.ofLine
  rcases h with htext | htext | ⟨name, htext⟩
  · rw [htext]
    exact ⟨_, .stack, rfl⟩
  · rw [htext]
    exact ⟨_, .words, rfl⟩
  · have hbehind : Text.behind? ".see ".toList (Text.trimmed text).toList = some name.toList := by
      rw [Text.behind?_eq_some_iff, htext, String.toList_append]
    have hstack : ".see " ++ name ≠ ".s" := fun h => by
      simpa using congrArg String.toList h
    have hwords : ".see " ++ name ≠ ".words" := fun h => by
      simpa using congrArg String.toList h
    rw [htext] at hbehind
    simp only [htext, if_neg hstack, if_neg hwords, hbehind, String.ofList_toList]
    exact ⟨_, .see name, rfl⟩

/-- A text that does not look asks for its own execution. -/
theorem ofLine_of_not_looks (h : ¬ Looks text) : Request.ofLine text = .exec text := by
  obtain ⟨hstack, hothers⟩ := not_or.1 h
  obtain ⟨hwords, hsee⟩ := not_or.1 hothers
  have hbehind : Text.behind? ".see ".toList (Text.trimmed text).toList = none := by
    rw [Option.eq_none_iff_forall_ne_some]
    intro name hname
    refine hsee ⟨String.ofList name, String.toList_inj.1 ?_⟩
    rw [Text.behind?_eq_some_iff.1 hname, String.toList_append]
    exact congrArg (_ ++ ·) String.toList_ofList.symm
  unfold Request.ofLine
  simp only [if_neg hstack, if_neg hwords, hbehind]

/-- **A text that does not look is executed as it stands.**  What is logged meanwhile is not on the
first stream. -/
theorem answer_of_not_looks (h : ¬ Looks text) (f : Log.Filter) (fuel : Nat) (m : Machine) :
    (answer f fuel m (Request.ofLine text)).map (fun (t, m') => (t.stdout, m')) =
      (m.exec fuel text).map fun (r, after) => (response r after, after.clearConsole) := by
  have hlog : (lineLog f fuel m text).stdout = "" := by
    unfold lineLog
    split <;> rfl
  rw [ofLine_of_not_looks h, answer, execute, Option.map_map, Option.map_map]
  congr 1
  funext ⟨r, after⟩
  refine Prod.ext ?_ rfl
  show (lineLog f fuel m text).stdout ++ after.console ++ _ = _
  rw [hlog, String.empty_append]
  rfl

/-- **Only an execution keeps the console from its answer.** -/
theorem answer_eq_none_iff : answer f fuel m (Request.ofLine text) = none ↔
    ¬ Looks text ∧ m.exec fuel text = none := by
  by_cases h : Looks text
  · obtain ⟨reply, -, hanswer⟩ := h.answer f fuel m
    rw [hanswer]
    exact iff_of_false nofun fun hboth => hboth.1 h
  · rw [and_iff_right h, ← Option.map_eq_none_iff, answer_of_not_looks h, Option.map_eq_none_iff]

end Answer

/-! ## What is said -/

section Converse

variable {f : Log.Filter} {fuel : Nat} {m m' : Machine} {t : Transcript}
  {before : List (List UInt8)}

/-- The console answers these lines with `t`, and the machine that it has then is `m'`: whatever
comes behind them is answered as `m'` alone would have it. -/
def Answers (f : Log.Filter) (fuel : Nat) (m : Machine) (before : List (List UInt8))
    (t : Transcript) (m' : Machine) : Prop :=
  ∀ rest, converse f fuel m (before ++ rest) =
    (converse f fuel m' rest).map fun (u, m'') => (t ++ u, m'')

/-- No lines are answered by nothing. -/
theorem answers_nil : Answers f fuel m [] {} m := by
  intro rest
  rw [List.nil_append]
  cases converse f fuel m rest with
  | none => rfl
  | some r => exact congrArg some (Prod.ext (Transcript.empty_append r.1).symm rfl)

/-- One line is answered by its answer. -/
theorem answers_singleton {line : List UInt8} {text : String} (hread : Reads line text)
    (h : answer f fuel m (Request.ofLine text) = some (t, m')) :
    Answers f fuel m [line] t m' := by
  intro rest
  rw [List.singleton_append, converse]
  simp only [lineText?_eq_some_iff.2 hread, h]

/-- Lines behind others are answered by the machine that the others leave. -/
theorem Answers.trans {m'' : Machine} {u : Transcript} {behind : List (List UInt8)}
    (h : Answers f fuel m before t m') (h' : Answers f fuel m' behind u m'') :
    Answers f fuel m (before ++ behind) (t ++ u) m'' := by
  intro rest
  rw [List.append_assoc, h, h', Option.map_map]
  congr 1
  funext r
  exact Prod.ext (Transcript.append_assoc t u r.1).symm rfl

/-- **Lines that can be read are answered**, unless one of them runs for too long. -/
theorem answers_or_none (before : List (List UInt8)) (m : Machine)
    (hread : ∀ line ∈ before, WellFormed line) :
    (∀ rest, converse f fuel m (before ++ rest) = none) ∨
      ∃ t m', Answers f fuel m before t m' := by
  induction before generalizing m with
  | nil => exact .inr ⟨{}, m, answers_nil⟩
  | cons line before ih =>
    obtain ⟨hline, hbefore⟩ := List.forall_mem_cons.1 hread
    obtain ⟨text, htext⟩ := exists_reads hline
    cases ha : answer f fuel m (Request.ofLine text) with
    | none =>
      left
      intro rest
      rw [List.cons_append, converse]
      simp only [lineText?_eq_some_iff.2 htext, ha]
    | some r =>
      have hfirst : Answers f fuel m [line] r.1 r.2 := answers_singleton htext ha
      rcases ih r.2 hbefore with hnone | ⟨u, m', hrest⟩
      · left
        intro rest
        rw [List.cons_append, ← List.singleton_append, hfirst, hnone]
        rfl
      · exact .inr ⟨r.1 ++ u, m', hfirst.trans hrest⟩

end Converse

/-! ## What is said on the first stream -/

/-- What the console says to an input, and the machine that is left. -/
def said (f : Log.Filter) (fuel : Nat) (m : Machine) (input : List UInt8) :
    Option (String × Machine) :=
  (converse f fuel m (lines input)).map fun (t, m) => (t.stdout, m)

/-- What is said behind a text. -/
def following (text : String) (r : String × Machine) : String × Machine :=
  (text ++ r.1, r.2)

section Said

variable {f : Log.Filter} {fuel : Nat} {m m' : Machine} {t : Transcript} {a line rest : List UInt8}
  {text : String}

/-- An input that is over is answered by the farewell. -/
theorem said_nil : said f fuel m [] = some (farewell, m) :=
  rfl

/-- What is said to an input is said behind what is said to the lines in front of it. -/
theorem Answers.said_append (h : Answers f fuel m (lines a) t m') (ha : Whole a) (b : List UInt8) :
    said f fuel m (a ++ b) = (said f fuel m' b).map (following t.stdout) := by
  unfold said
  rw [lines_append ha, h, Option.map_map, Option.map_map]
  rfl

/-- The farewell stands behind the answers. -/
theorem Answers.said_eq (h : Answers f fuel m (lines a) t m') (ha : Whole a) :
    said f fuel m a = some (t.stdout ++ farewell, m') := by
  have hnil := h.said_append ha []
  rwa [List.append_nil, said_nil] at hnil

/-- Whole lines of UTF-8 are answered, unless one of them runs for too long. -/
theorem said_or_none (f : Log.Filter) (fuel : Nat) (m : Machine) (ha : Whole a)
    (hread : WellFormed a) :
    (∀ b, said f fuel m (a ++ b) = none) ∨
      ∃ t m', Answers f fuel m (lines a) t m' := by
  rcases answers_or_none (lines a) m fun _ => wellFormed_of_mem_lines hread with hnone | hanswers
  · left
    intro b
    unfold said
    rw [lines_append ha, hnone]
    rfl
  · exact .inr hanswers

/-- A last line that nothing ends is a line like others. -/
theorem said_unended (hne : line ≠ []) (hmem : 0x0A ∉ line) :
    said f fuel m line = said f fuel m (line ++ [0x0A]) := by
  unfold said
  rw [lines_unended hne hmem, lines_line hmem]

/-- One line is answered by its answer and the farewell. -/
theorem said_line (hmem : 0x0A ∉ line) (hread : Reads line text) :
    said f fuel m (line ++ [0x0A]) =
      (answer f fuel m (Request.ofLine text)).map fun (t, m') => (t.stdout ++ farewell, m') := by
  unfold said
  rw [lines_line hmem, converse]
  simp only [lineText?_eq_some_iff.2 hread]
  cases answer f fuel m (Request.ofLine text) <;> rfl

/-- A line that is not UTF-8 is all that is answered of an input that it begins. -/
theorem said_unreadable (hbroken : ¬ WellFormed line) (hmem : 0x0A ∉ line)
    (hrest : ∀ b ∈ rest.head?, b = 0x0A) :
    said f fuel m (line ++ rest) = some (unreadable, m) := by
  have hne : line ≠ [] := by
    rintro rfl
    exact hbroken ⟨[], rfl⟩
  have hread : lineText? line = none := by
    rw [← Option.not_isSome_iff_eq_none, isSome_lineText?_iff]
    exact hbroken
  obtain ⟨behind, hlines⟩ := exists_lines_append hne hmem hrest
  unfold said
  rw [hlines, converse]
  simp only [hread]
  rfl

/-- A line that runs for too long: `front` is what stands in front of it, and `m'` is the machine
that the console has when it comes to it. -/
structure Overlong (f : Log.Filter) (fuel : Nat) (m : Machine) (input front : List UInt8)
    (text : String) (m' : Machine) : Prop where
  line : ∃ line rest, LineOf input front line rest ∧ Reads line text
  reached : ∃ replies, said f fuel m front = some (replies ++ farewell, m')
  executes : ¬ Looks text
  endless : m'.exec fuel text = none

/-- A line that keeps a conversation from its end can at least be read. -/
theorem LineOf.wellFormed {input : List UInt8} (h : LineOf input [] line rest)
    (hsaid : said f fuel m input = none) : WellFormed line := by
  by_contra hbroken
  rw [h.split, List.nil_append, said_unreadable hbroken h.unended h.ended] at hsaid
  cases hsaid

/-- **A conversation that does not end has a line that does not.** -/
theorem exists_overlong (input : List UInt8) (h : said f fuel m input = none) :
    ∃ front text m', Overlong f fuel m input front text m' := by
  induction input using induction_on_lines generalizing m with
  | last line hmem =>
    have hhead : LineOf line [] line [] := .head (List.append_nil line).symm hmem nofun
    obtain ⟨text, htext⟩ := exists_reads (hhead.wellFormed h)
    have hne : line ≠ [] := by
      rintro rfl
      cases h
    rw [said_unended hne hmem, said_line hmem htext, Option.map_eq_none_iff,
      answer_eq_none_iff] at h
    exact ⟨[], text, m, ⟨line, [], hhead, htext⟩, ⟨"", rfl⟩, h.1, h.2⟩
  | cons line behind hmem ih =>
    have hhead : LineOf (line ++ 0x0A :: behind) [] line (0x0A :: behind) :=
      .head rfl hmem (by simp)
    have hread : WellFormed line := hhead.wellFormed h
    obtain ⟨text, htext⟩ := exists_reads hread
    cases ha : answer f fuel m (Request.ofLine text) with
    | none =>
      obtain ⟨hexecutes, hendless⟩ := answer_eq_none_iff.1 ha
      exact ⟨[], text, m, ⟨line, _, hhead, htext⟩, ⟨"", rfl⟩, hexecutes, hendless⟩
    | some r =>
      -- this line has its answer, so the one that has none is behind it
      have hfirst : Answers f fuel m (lines (line ++ [0x0A])) r.1 r.2 := by
        rw [lines_line hmem]
        exact answers_singleton htext ha
      have hsaid := hfirst.said_append (whole_line line)
      have hsplit : line ++ 0x0A :: behind = line ++ [0x0A] ++ behind := by simp
      rw [hsplit, hsaid, Option.map_eq_none_iff] at h
      obtain ⟨front, text', m', ⟨line', rest, hline, htext'⟩, ⟨replies, hfront⟩, hexecutes,
        hendless⟩ := ih h
      refine ⟨_, text', m', ⟨line', rest, hline.behind hread, htext'⟩,
        ⟨r.1.stdout ++ replies, ?_⟩, hexecutes, hendless⟩
      rw [hsaid, hfront, String.append_assoc]
      rfl

end Said

/-- How a conversation hangs together. -/
structure Conversational (f : Log.Filter) (fuel : Nat) : Prop where
  /-- An input that is over is answered by the farewell. -/
  atEnd (m : Machine) : said f fuel m [] = some (farewell, m)
  /-- A last line that nothing ends is a line like others. -/
  unended (m : Machine) {line : List UInt8} : line ≠ [] → 0x0A ∉ line →
    said f fuel m line = said f fuel m (line ++ [0x0A])
  /-- A line that does not look is executed as it stands, and answered by what has been printed and
  by its report; the machine goes on with nothing printed.  There is no answer only if the execution
  runs for too long. -/
  executed (m : Machine) {line : List UInt8} {text : String} : 0x0A ∉ line → Reads line text →
    ¬ Looks text →
    said f fuel m (line ++ [0x0A]) = (m.exec fuel text).map fun (r, after) =>
      (response r after ++ farewell, after.clearConsole)
  /-- An input that is cut behind a line feed is answered part by part, unless a line of the
  first part runs for too long. -/
  cut (m : Machine) {a : List UInt8} : Whole a → WellFormed a →
    (said f fuel m a = none ∧ ∀ b, said f fuel m (a ++ b) = none) ∨
      ∃ text m', said f fuel m a = some (text ++ farewell, m') ∧
        ∀ b, said f fuel m (a ++ b) = (said f fuel m' b).map (following text)
  /-- A line that looks is answered by what it asks for and leaves the machine as it is, so it can
  be left out. -/
  look (m : Machine) {front line : List UInt8} {text : String} : Whole front → WellFormed front →
    0x0A ∉ line → Reads line text → Looks text →
    (∀ rest, said f fuel m (front ++ (line ++ [0x0A]) ++ rest) = none ∧
      said f fuel m (front ++ rest) = none) ∨
      ∃ replies reply m', said f fuel m front = some (replies ++ farewell, m') ∧
        Shows m' (Text.trimmed text) reply ∧
        said f fuel m' (line ++ [0x0A]) = some (reply ++ farewell, m') ∧
        ∀ rest,
          said f fuel m (front ++ (line ++ [0x0A]) ++ rest) =
            (said f fuel m' rest).map (following (replies ++ reply)) ∧
          said f fuel m (front ++ rest) = (said f fuel m' rest).map (following replies)
  /-- The first line that is not UTF-8 is the end, when all lines before it are answered. -/
  stop (m : Machine) {input front line rest : List UInt8} :
    FirstUnreadable input front line rest →
    (said f fuel m front = none ∧ said f fuel m input = none) ∨
      ∃ text m', said f fuel m front = some (text ++ farewell, m') ∧
        said f fuel m input = some (text ++ unreadable, m')
  /-- Nothing but the execution of a line keeps a conversation from its end. -/
  ends (m : Machine) {input : List UInt8} : said f fuel m input = none →
    ∃ front text m', Overlong f fuel m input front text m'

/-- **A conversation hangs together**, whatever is logged meanwhile. -/
theorem conversational (f : Log.Filter) (fuel : Nat) : Conversational f fuel where
  atEnd _ := said_nil
  unended _ _ hne hmem := said_unended hne hmem
  executed m line text hmem hread hlooks := by
    have hanswer := answer_of_not_looks hlooks f fuel m
    rw [said_line hmem hread]
    have hmap := congrArg (Option.map fun said => (said.1 ++ farewell, said.2)) hanswer
    rwa [Option.map_map, Option.map_map] at hmap
  cut m a ha hread := by
    rcases said_or_none f fuel m ha hread with hnone | ⟨t, m', ht⟩
    · have hfront := hnone []
      rw [List.append_nil] at hfront
      exact .inl ⟨hfront, hnone⟩
    · exact .inr ⟨t.stdout, m', ht.said_eq ha, ht.said_append ha⟩
  look m front line text ha hread hmem htext hlooks := by
    rcases said_or_none f fuel m ha hread with hnone | ⟨t, m', ht⟩
    · left
      intro rest
      rw [List.append_assoc]
      exact ⟨hnone _, hnone _⟩
    · right
      obtain ⟨reply, hshows, hreply⟩ := hlooks.answer f fuel m'
      have hline : Answers f fuel m' (lines (line ++ [0x0A])) (.out reply) m' := by
        rw [lines_line hmem]
        exact answers_singleton htext hreply
      have hboth : Answers f fuel m (lines (front ++ (line ++ [0x0A]))) (t ++ .out reply) m' := by
        rw [lines_append ha]
        exact ht.trans hline
      refine ⟨t.stdout, reply, m', ht.said_eq ha, hshows, hline.said_eq (whole_line line), ?_⟩
      intro rest
      exact ⟨hboth.said_append (ha.append (whole_line line)) rest, ht.said_append ha rest⟩
  stop m input front line rest h := by
    rw [h.split, List.append_assoc]
    rcases said_or_none f fuel m h.whole h.readable with hnone | ⟨t, m', ht⟩
    · have hfront := hnone []
      rw [List.append_nil] at hfront
      exact .inl ⟨hfront, hnone _⟩
    · refine .inr ⟨t.stdout, m', ht.said_eq h.whole, ?_⟩
      rw [ht.said_append h.whole, said_unreadable h.broken h.unended h.ended]
      rfl
  ends _ input := exists_overlong input

end Console

end Threaded
