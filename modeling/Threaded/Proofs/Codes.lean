import Threaded.Proofs.Runs
import Threaded.Proofs.Verdict
import Threaded.Report

/-!
# What the code of a line says

Executing a line answers with a code or with an error.  The codes come from three places: zero from
success, a byte offset from a token that is too long, and the index of a token, written `-(k + 1)`,
from everything else that keeps a line from compiling.  They are told apart by their sign, which
rests on two facts: a token of one byte always fits, so no offset is zero, and a line has fewer
tokens than there are cells, so no index wraps.  And as every such failure has a code, an error is
an error of the run, also when it is one that has a code.

`CodeContract` says this of one machine and one line, and `exec_contract` says it of all.
-/

namespace Threaded

/-! ## The code of a token -/

/-- The place among the tokens of a line that an error blames. -/
def Error.index? : Error → Option Nat
  | unresolvedSymbol index _ => some index
  | unmatchedElseOrEnd index => some index
  | danglingIf count => some count
  | jumpOutOfBounds index _ => some index
  | _ => none

/-- An error that blames a token has the code of that token. -/
theorem Error.folded_of_index? {e : Error} {k : Nat} (h : e.index? = some k) :
    e.folded = .ok (indexCode k) := by
  cases e <;> cases h <;> rfl

/-- The code of an index is the opposite of the number of tokens up to there. -/
theorem Error.toInt_indexCode {k : Nat} (h : k < 2 ^ 63) :
    (indexCode k).toInt = -((k : Int) + 1) := by
  have hone : (1 : Cell).toInt = 1 := by decide
  unfold indexCode
  rw [Int64.toInt_neg, Int64.toInt_add, Cell.toInt_ofCount h, hone, Int.bmod_neg_bmod,
    Int.bmod_def]
  omega

/-! ## The report of a code -/

section Report

variable {n : Cell} {r : Except Error Cell}

/-- A positive code is reported as that of a token that is too long. -/
theorem report_of_pos (h : 0 < n) :
    report (.ok n) = some ("error " ++ (n.render ++ ": token too long")) := by
  have hzero := Cell.ne_zero_of_pos h
  simp only [report, if_neg hzero, if_pos h, String.append_assoc]

/-- A negative code is reported with the index that it stands for. -/
theorem report_of_neg (h : n < 0) :
    report (.ok n) =
      some ("error " ++ (n.render ++ ": bad token " ++ (-n - 1 : Cell).render)) := by
  have hlt := Cell.neg_iff_toInt.1 h
  have hzero := Cell.ne_zero_of_neg h
  have hpos : ¬ 0 < n := by
    intro hpos
    rw [Cell.pos_iff_toInt] at hpos
    omega
  simp only [report, if_neg hzero, if_neg hpos, String.append_assoc]

/-- What a report says is decided by the sign of the code. -/
theorem report_cases (r : Except Error Cell) :
    (r = .ok 0 ∧ report r = none) ∨
      (∃ n, r = .ok n ∧ 0 < n ∧ report r = some ("error " ++ (n.render ++ ": token too long"))) ∨
      (∃ n, r = .ok n ∧ n < 0 ∧
        report r = some ("error " ++ (n.render ++ ": bad token " ++ (-n - 1 : Cell).render))) ∨
      ∃ e, r = .error e ∧ report r = some ("error: " ++ e.message) := by
  cases r with
  | error e => exact .inr (.inr (.inr ⟨e, rfl, rfl⟩))
  | ok n =>
    by_cases hzero : n = 0
    · subst hzero
      exact .inl ⟨rfl, rfl⟩
    · by_cases hpos : 0 < n
      · exact .inr (.inl ⟨n, rfl, hpos, report_of_pos hpos⟩)
      · have hne : n.toInt ≠ 0 := fun h => hzero (Int64.toInt.inj h)
        have hneg : n < 0 := by
          rw [Cell.pos_iff_toInt] at hpos
          rw [Cell.neg_iff_toInt]
          omega
        exact .inr (.inr (.inl ⟨n, rfl, hneg, report_of_neg hneg⟩))

/-- The sixth character tells a code from an error. -/
theorem code_ne_message (text text' : String) : "error " ++ text ≠ "error: " ++ text' := by
  intro h
  have hlist := congrArg String.toList h
  simp at hlist

/-- A text about a bad token is not about a token too long: there is no letter `l` in it. -/
theorem tooLong_ne_badToken (n n' k : Cell) :
    "error " ++ (n.render ++ ": token too long") ≠
      "error " ++ (n'.render ++ ": bad token " ++ k.render) := by
  have hrender : ∀ c : Cell, 'l' ∉ c.render.toList := by
    intro c hl
    rcases Cell.eq_or_isDigit_of_mem_render hl with hl | hl <;> revert hl <;> decide
  intro h
  have hmem : 'l' ∈ ("error " ++ (n.render ++ ": token too long")).toList := by simp
  rw [h] at hmem
  simp [hrender] at hmem

/-- **Nothing is reported for zero**, and for nothing else. -/
theorem report_eq_none_iff : report r = none ↔ r = .ok 0 := by
  constructor
  · intro h
    rcases report_cases r with ⟨hr, _⟩ | ⟨n, _, _, hs⟩ | ⟨n, _, _, hs⟩ | ⟨e, _, hs⟩
    · exact hr
    · rw [hs] at h
      simp at h
    · rw [hs] at h
      simp at h
    · rw [hs] at h
      simp at h
  · rintro rfl
    rfl

/-- **A token too long is reported for a positive code**, and for nothing else. -/
theorem report_tooLong_iff :
    (∃ n : Cell, report r = some ("error " ++ (n.render ++ ": token too long"))) ↔
      ∃ n, r = .ok n ∧ 0 < n := by
  constructor
  · rintro ⟨n, h⟩
    rcases report_cases r with ⟨_, hs⟩ | ⟨n', hr, hpos, _⟩ | ⟨n', _, _, hs⟩ | ⟨e, _, hs⟩
    · rw [hs] at h
      simp at h
    · exact ⟨n', hr, hpos⟩
    · rw [hs] at h
      exact absurd (Option.some.inj h).symm (tooLong_ne_badToken _ _ _)
    · rw [hs] at h
      exact absurd (Option.some.inj h).symm (code_ne_message _ _)
  · rintro ⟨n, rfl, hpos⟩
    exact ⟨n, report_of_pos hpos⟩

/-- **A bad token is reported for a negative code**, and for nothing else. -/
theorem report_badToken_iff :
    (∃ n k : Cell, report r = some ("error " ++ (n.render ++ ": bad token " ++ k.render))) ↔
      ∃ n, r = .ok n ∧ n < 0 := by
  constructor
  · rintro ⟨n, k, h⟩
    rcases report_cases r with ⟨_, hs⟩ | ⟨n', _, _, hs⟩ | ⟨n', hr, hneg, _⟩ | ⟨e, _, hs⟩
    · rw [hs] at h
      simp at h
    · rw [hs] at h
      exact absurd (Option.some.inj h) (tooLong_ne_badToken _ _ _)
    · exact ⟨n', hr, hneg⟩
    · rw [hs] at h
      exact absurd (Option.some.inj h).symm (code_ne_message _ _)
  · rintro ⟨n, rfl, hneg⟩
    exact ⟨n, -n - 1, report_of_neg hneg⟩

/-- **A message is reported for an error**, and for nothing else. -/
theorem report_message_iff :
    (∃ text, report r = some ("error: " ++ text)) ↔ ∃ e, r = .error e := by
  constructor
  · rintro ⟨text, h⟩
    rcases report_cases r with ⟨_, hs⟩ | ⟨n, _, _, hs⟩ | ⟨n, _, _, hs⟩ | ⟨e, hr, _⟩
    · rw [hs] at h
      simp at h
    · rw [hs] at h
      exact absurd (Option.some.inj h) (code_ne_message _ _)
    · rw [hs] at h
      exact absurd (Option.some.inj h) (code_ne_message _ _)
    · exact ⟨e, hr⟩
  · rintro ⟨e, rfl⟩
    exact ⟨e.message, rfl⟩

/-- The code `-(k + 1)` is reported as the bad token `k`. -/
theorem report_of_toInt {k : Nat} (h : n.toInt = -((k : Int) + 1)) :
    report (.ok n) = some ("error " ++ (n.render ++ ": bad token " ++ k.repr)) := by
  have hneg : n < 0 := Cell.neg_iff_toInt.2 (by omega)
  have hk : (-n - 1 : Cell).render = k.repr := by
    have hval : (-n - 1 : Cell).toInt = (k : Int) := by
      rw [Cell.toInt_neg_sub_one hneg]
      omega
    unfold Cell.render
    rw [hval]
    rfl
  rw [report_of_neg hneg, hk]

end Report

/-- What is said about an outcome, and about which outcomes it is said. -/
structure ReportContract (r : Except Error Cell) : Prop where
  silent : report r = none ↔ r = .ok 0
  tooLong : ∀ n, r = .ok n → 0 < n →
    report r = some ("error " ++ (n.render ++ ": token too long"))
  onlyTooLong : (∃ n : Cell, report r = some ("error " ++ (n.render ++ ": token too long"))) ↔
    ∃ n, r = .ok n ∧ 0 < n
  badToken : ∀ (n : Cell) (k : Nat), r = .ok n → n.toInt = -((k : Int) + 1) →
    report r = some ("error " ++ (n.render ++ ": bad token " ++ k.repr))
  onlyBadToken :
    (∃ n k : Cell, report r = some ("error " ++ (n.render ++ ": bad token " ++ k.render))) ↔
      ∃ n, r = .ok n ∧ n < 0
  message : ∀ e, r = .error e → report r = some ("error: " ++ e.message)
  onlyMessage : (∃ text, report r = some ("error: " ++ text)) ↔ ∃ e, r = .error e

/-- **The report says what the outcome is**, for every outcome. -/
theorem reportContract (r : Except Error Cell) : ReportContract r where
  silent := report_eq_none_iff
  tooLong n hr hpos := by
    rw [hr]
    exact report_of_pos hpos
  onlyTooLong := report_tooLong_iff
  badToken n k hr hk := by
    rw [hr]
    exact report_of_toInt hk
  onlyBadToken := report_badToken_iff
  message e hr := by
    rw [hr]
    rfl
  onlyMessage := report_message_iff

/-! ## The contract -/

namespace Machine

/-- What the code of a line says. -/
structure CodeContract (m : Machine) (line : String) : Prop where
  /-- A positive code comes from a token that is too long, and nothing has happened. -/
  tooLong : ∀ n m', 0 < n → (m.ExecsTo line (.ok n, m') ↔
    ∃ r, firstTooLong? m.limits.nameLen line = some r ∧
      n.toInt = (r.pos + m.limits.nameLen : Nat) ∧ m' = m)
  /-- The offset of such a token is inside the line, and not its first byte. -/
  offset : ∀ r, firstTooLong? m.limits.nameLen line = some r →
    0 < r.pos + m.limits.nameLen ∧ r.pos + m.limits.nameLen < line.utf8ByteSize
  /-- A negative code comes from another failure to compile, and blames the token of that. -/
  badToken : ∀ n m', n < 0 → (m.ExecsTo line (.ok n, m') ↔
    firstTooLong? m.limits.nameLen line = none ∧
      ∃ e k, m.compile line = (.error e, m') ∧ e.index? = some k ∧ n.toInt = -((k : Int) + 1))
  /-- Such a failure blames one of the tokens, or their end if an IF is left open; all that it
  leaves behind are entries without names. -/
  blamed : ∀ e m', firstTooLong? m.limits.nameLen line = none →
    m.compile line = (.error e, m') →
      (∃ k ≤ (lineSymbols line).length, e.index? = some k ∧
        (k = (lineSymbols line).length ↔ ∃ count, e = .danglingIf count)) ∧
      m'.bench = m.bench ∧ m'.limits = m.limits ∧ m'.dict.names = m.dict.names ∧
      (∀ name, m'.dict.lookup name = m.dict.lookup name) ∧ m.dict.ExtendsUnnamed m'.dict
  /-- Zero comes from a blank line, or from a run that succeeds. -/
  success : ∀ m', m.ExecsTo line (.ok 0, m') ↔
    m.compile line = (.ok none, m') ∨
      ∃ w m₁, m.compile line = (.ok (some w), m₁) ∧ m₁.RunsTo w (.ok (), m')
  /-- An error comes from a run that fails, and is the same. -/
  failure : ∀ e m', m.ExecsTo line (.error e, m') ↔
    ∃ w m₁, m.compile line = (.ok (some w), m₁) ∧ m₁.RunsTo w (.error e, m')
  /-- A line that is evaluated leaves the same machine. -/
  evalSame : ∀ m', (∃ r, m.EvalsTo line (r, m')) ↔ ∃ r, m.ExecsTo line (r, m')
  /-- A line that is evaluated succeeds for the code zero. -/
  evalOk : ∀ m', m.EvalsTo line (.ok (), m') ↔ m.ExecsTo line (.ok 0, m')

variable {allowed : Command → Prop} {m : Machine} {line : String}

/-- The offset of a token that is too long is inside the line, and not its first byte. -/
theorem offset_lt (h : Reachable allowed m) {r : Text.Run Char}
    (hr : firstTooLong? m.limits.nameLen line = some r) :
    0 < r.pos + m.limits.nameLen ∧ r.pos + m.limits.nameLen < line.utf8ByteSize := by
  have hpos := h.nameLen_pos
  have hfound := List.find?_some hr
  have hlong : m.limits.nameLen < r.width Char.utf8Size := of_decide_eq_true hfound
  have hstop := stop_le_of_mem_lineRuns (List.mem_of_find?_eq_some hr)
  rw [Text.Run.stop] at hstop
  omega

/-- What is blamed among the tokens of a line. -/
theorem index?_of_blame? {d : Dict} {symbols : List Symbol} {e : Error}
    (h : blame? d symbols = some e) :
    ∃ k ≤ symbols.length, e.index? = some k ∧
      (k = symbols.length ↔ ∃ count, e = .danglingIf count) := by
  rcases blame?_cases h with ⟨t, ht, ⟨name, rfl⟩ | rfl⟩ | rfl | ⟨t, ht, target, rfl, _⟩
  · exact ⟨t, Nat.le_of_lt ht, rfl, fun heq => absurd heq (Nat.ne_of_lt ht), by rintro ⟨_, ⟨⟩⟩⟩
  · exact ⟨t, Nat.le_of_lt ht, rfl, fun heq => absurd heq (Nat.ne_of_lt ht), by rintro ⟨_, ⟨⟩⟩⟩
  · exact ⟨_, Nat.le_refl _, rfl, fun _ => ⟨_, rfl⟩, fun _ => rfl⟩
  · exact ⟨t, Nat.le_of_lt ht, rfl, fun heq => absurd heq (Nat.ne_of_lt ht), by rintro ⟨_, ⟨⟩⟩⟩

/-- **A failure to compile has a code**, and its sign tells the two kinds of failure apart. -/
theorem folded_of_compile (h : Reachable allowed m) (hline : line.utf8ByteSize < 2 ^ 63)
    {e : Error} {m' : Machine} (he : m.compile line = (.error e, m')) :
    ∃ c, e.folded = .ok c ∧
      ((∃ r, firstTooLong? m.limits.nameLen line = some r ∧
          0 < c.toInt ∧ c.toInt = (r.pos + m.limits.nameLen : Nat) ∧ m' = m) ∨
        firstTooLong? m.limits.nameLen line = none ∧ c.toInt < 0 ∧
          ∃ k, e.index? = some k ∧ c.toInt = -((k : Int) + 1)) := by
  have hfst : (m.compile line).1 = .error e := by rw [he]
  rcases blame?_of_compile h.get?_nop hline hfst with ⟨r, hr, rfl⟩ | ⟨hfit, hblame⟩
  · obtain ⟨hpos, hlt⟩ := offset_lt h hr
    have hcode : (Cell.ofCount (r.pos + m.limits.nameLen)).toInt =
        (r.pos + m.limits.nameLen : Nat) := Cell.toInt_ofCount (by omega)
    rw [compile_eq, hr] at he
    cases he
    exact ⟨_, rfl, .inl ⟨r, hr, by omega, hcode, rfl⟩⟩
  · obtain ⟨k, hk, hindex, _⟩ := index?_of_blame? hblame
    have hcount := two_mul_length_lineRuns_le line
    rw [length_lineSymbols] at hk
    have hcode := Error.toInt_indexCode (show k < 2 ^ 63 by omega)
    exact ⟨_, Error.folded_of_index? hindex, .inr ⟨hfit, by omega, k, hindex, hcode⟩⟩

/-- How executing a line ends: with the code of a failure to compile, with zero for a blank line,
or as the run of its word does, with zero if that succeeds. -/
theorem execsTo_cases {r : Except Error Cell} {m' : Machine} (h : m.ExecsTo line (r, m')) :
    (∃ e, m.compile line = (.error e, m') ∧ r = e.folded) ∨
      (m.compile line = (.ok none, m') ∧ r = .ok 0) ∨
      ∃ w m₁, m.compile line = (.ok (some w), m₁) ∧
        ((m₁.RunsTo w (.ok (), m') ∧ r = .ok 0) ∨
          ∃ e, m₁.RunsTo w (.error e, m') ∧ r = .error e) := by
  rw [execsTo_iff] at h
  generalize m.compile line = compiled at h ⊢
  rcases compiled with ⟨e | (_ | w), m₁⟩
  · cases h
    exact .inl ⟨e, rfl, rfl⟩
  · cases h
    exact .inr (.inl ⟨rfl, rfl⟩)
  · obtain ⟨s, m₂, hrun, heq⟩ := h
    refine .inr (.inr ⟨w, m₁, rfl, ?_⟩)
    cases s with
    | ok =>
      cases heq
      exact .inl ⟨hrun, rfl⟩
    | error e =>
      cases heq
      exact .inr ⟨e, hrun, rfl⟩

/-- A code that is not zero is that of a failure to compile. -/
theorem compile_of_execsTo {n : Cell} {m' : Machine} (h : m.ExecsTo line (.ok n, m'))
    (hn : n ≠ 0) : ∃ e, m.compile line = (.error e, m') ∧ e.folded = .ok n := by
  rcases execsTo_cases h with ⟨e, hc, hr⟩ | ⟨_, hr⟩ | ⟨_, _, _, ⟨_, hr⟩ | ⟨_, _, hr⟩⟩
  · exact ⟨e, hc, hr.symm⟩
  · exact absurd (Except.ok.inj hr) hn
  · exact absurd (Except.ok.inj hr) hn
  · simp at hr

/-- Zero comes from a blank line, or from a run that succeeds. -/
theorem execsTo_zero_iff (h : Reachable allowed m) (hline : line.utf8ByteSize < 2 ^ 63)
    (m' : Machine) :
    m.ExecsTo line (.ok 0, m') ↔
      m.compile line = (.ok none, m') ∨
        ∃ w m₁, m.compile line = (.ok (some w), m₁) ∧ m₁.RunsTo w (.ok (), m') := by
  constructor
  · intro hexec
    rcases execsTo_cases hexec with ⟨e, hc, hr⟩ | ⟨hc, _⟩ | ⟨w, m₁, hc, ⟨hrun, _⟩ | ⟨_, _, hr⟩⟩
    · obtain ⟨c, hfold, hsign⟩ := folded_of_compile h hline hc
      rw [hfold] at hr
      cases hr
      rcases hsign with ⟨_, _, hpos, _⟩ | ⟨_, hneg, _⟩
      · exact absurd hpos (by decide)
      · exact absurd hneg (by decide)
    · exact .inl hc
    · exact .inr ⟨w, m₁, hc, hrun⟩
    · simp at hr
  · rintro (hc | ⟨w, m₁, hc, hrun⟩)
    · rw [execsTo_iff, hc]
    · rw [execsTo_iff, hc]
      exact ⟨.ok (), m', hrun, rfl⟩

/-- Evaluating succeeds for the same lines. -/
theorem evalsTo_ok_iff (m : Machine) (line : String) (m' : Machine) :
    m.EvalsTo line (.ok (), m') ↔
      m.compile line = (.ok none, m') ∨
        ∃ w m₁, m.compile line = (.ok (some w), m₁) ∧ m₁.RunsTo w (.ok (), m') := by
  rw [evalsTo_iff]
  rcases m.compile line with ⟨e | (_ | w), m₁⟩
  · constructor
    · intro h
      simp at h
    · rintro (h | ⟨w, m₁, h, _⟩) <;> cases h
  · constructor
    · intro h
      cases h
      exact .inl rfl
    · rintro (h | ⟨w, m₁, h, _⟩) <;> cases h
      rfl
  · constructor
    · intro h
      exact .inr ⟨w, m₁, rfl, h⟩
    · rintro (h | ⟨w, m₁, h, hrun⟩) <;> cases h
      exact hrun

/-- Evaluating and executing leave the same machine. -/
theorem evalsTo_iff_execsTo (m : Machine) (line : String) (m' : Machine) :
    (∃ r, m.EvalsTo line (r, m')) ↔ ∃ r, m.ExecsTo line (r, m') := by
  simp only [evalsTo_iff, execsTo_iff]
  rcases m.compile line with ⟨e | (_ | w), m₁⟩
  · constructor <;> rintro ⟨r, h⟩ <;> cases h
    · exact ⟨_, rfl⟩
    · exact ⟨_, rfl⟩
  · constructor <;> rintro ⟨r, h⟩ <;> cases h
    · exact ⟨_, rfl⟩
    · exact ⟨_, rfl⟩
  · constructor
    · rintro ⟨r, h⟩
      exact ⟨_, r, m', h, rfl⟩
    · rintro ⟨r, s, m₂, h, heq⟩
      cases heq
      exact ⟨s, h⟩

/-- **What the code of a line says**, for every line. -/
theorem codeContract (h : Reachable allowed m) (hline : line.utf8ByteSize < 2 ^ 63) :
    CodeContract m line where
  tooLong n m' hn := by
    have hne := Cell.ne_zero_of_pos hn
    rw [Cell.pos_iff_toInt] at hn
    constructor
    · intro hexec
      obtain ⟨e, hc, hn'⟩ := compile_of_execsTo hexec hne
      obtain ⟨c, hfold, hsign⟩ := folded_of_compile h hline hc
      obtain rfl : n = c := Except.ok.inj (hn'.symm.trans hfold)
      rcases hsign with ⟨t, ht, _, hcode, hm⟩ | ⟨_, hneg, _⟩
      · exact ⟨t, ht, hcode, hm⟩
      · omega
    · rintro ⟨r, hr, hcode, rfl⟩
      obtain ⟨_, hlt⟩ := offset_lt h hr
      have hn : n = Cell.ofCount (r.pos + m'.limits.nameLen) := by
        apply Int64.toInt.inj
        rw [hcode, Cell.toInt_ofCount (by omega)]
      rw [execsTo_iff, compile_eq, hr, hn]
      rfl
  offset r hr := offset_lt h hr
  badToken n m' hn := by
    have hne := Cell.ne_zero_of_neg hn
    rw [Cell.neg_iff_toInt] at hn
    constructor
    · intro hexec
      obtain ⟨e, hc, hn'⟩ := compile_of_execsTo hexec hne
      obtain ⟨c, hfold, hsign⟩ := folded_of_compile h hline hc
      obtain rfl : n = c := Except.ok.inj (hn'.symm.trans hfold)
      rcases hsign with ⟨_, _, hpos, _⟩ | ⟨hfit, _, k, hindex, hcode⟩
      · omega
      · exact ⟨hfit, e, k, hc, hindex, hcode⟩
    · rintro ⟨hfit, e, k, hc, hindex, hcode⟩
      obtain ⟨c, hfold, ⟨t, ht, _⟩ | ⟨_, _, k', hindex', hcode'⟩⟩ := folded_of_compile h hline hc
      · rw [ht] at hfit
        simp at hfit
      · rw [hindex] at hindex'
        cases hindex'
        obtain rfl : n = c := Int64.toInt.inj (by rw [hcode, hcode'])
        rw [execsTo_iff, hc, ← hfold]
  blamed e m' hfit he := by
    have hfst : (m.compile line).1 = .error e := by rw [he]
    have hunnamed := compile_extendsUnnamed m line
    have hbench := bench_compile m line
    have hlimits := limits_compile m line
    rw [he] at hunnamed hbench hlimits
    refine ⟨?_, hbench, hlimits, hunnamed.names_eq, hunnamed.lookup_eq, hunnamed⟩
    rcases blame?_of_compile h.get?_nop hline hfst with ⟨r, hr, _⟩ | ⟨_, hblame⟩
    · rw [hr] at hfit
      simp at hfit
    · exact index?_of_blame? hblame
  success m' := execsTo_zero_iff h hline m'
  failure e m' := by
    constructor
    · intro hexec
      rcases execsTo_cases hexec with ⟨e', hc, hr⟩ | ⟨_, hr⟩ | ⟨w, m₁, hc, ⟨_, hr⟩ | ⟨_, hrun, hr⟩⟩
      · obtain ⟨c, hfold, _⟩ := folded_of_compile h hline hc
        rw [hfold] at hr
        simp at hr
      · simp at hr
      · simp at hr
      · cases hr
        exact ⟨w, m₁, hc, hrun⟩
    · rintro ⟨w, m₁, hc, hrun⟩
      rw [execsTo_iff, hc]
      exact ⟨.error e, m', hrun, rfl⟩
  evalSame m' := evalsTo_iff_execsTo m line m'
  evalOk m' := (evalsTo_ok_iff m line m').trans (execsTo_zero_iff h hline m').symm

/-- **The code of a line and its report**, on every reachable machine. -/
theorem exec_contract (h : Reachable allowed m) (hline : line.utf8ByteSize < 2 ^ 63) :
    CodeContract m line ∧ ∀ r, ReportContract r :=
  ⟨codeContract h hline, reportContract⟩

/-- The bad token of a line is reported by its code. -/
theorem exec_contract_nope :
    "1 nope".utf8ByteSize < 2 ^ 63 ∧
      (boot {}).ExecsTo "1 nope" (.ok (-2), ((boot {}).compile "1 nope").2) ∧
      report (.ok (-2)) = some "error -2: bad token 1" := by
  have hreach : Reachable (fun _ => True) (boot {}) := .boot {}
  have hcontract := exec_contract hreach (show "1 nope".utf8ByteSize < 2 ^ 63 by decide)
  refine ⟨by decide, ?_, ?_⟩
  · exact (hcontract.1.badToken (-2) _ (by decide)).2 ⟨rfl, _, 1, rfl, rfl, by decide⟩
  · exact (hcontract.2 (.ok (-2))).badToken (-2) 1 rfl (by decide)

end Machine

end Threaded
