import Threaded.Proofs.AppendOnly
import Threaded.Proofs.EarlyBinding
import Threaded.Proofs.Stretch
import Threaded.Proofs.Together

/-!
# Lines compose

Put two lines that compile behind one another, with a blank between them, and what comes of it is
what comes of the one and then of the other (`lines_compose`): the slots of both words in a row, the
same result, and the same stack and text.

This is so because the seam is seen nowhere.  A blank parts the tokens (`lineSymbols_join`).  A line
that compiles has closed all its branches, so the symbols behind it are no part of its image
(`freshEntries_append`) and it leaves nothing open for them (`faultFrom_behind`).  Its branches land
on its own slots or right behind them, which is where the other line begins: each line is a stretch
of the joined word.
-/

namespace Threaded

/-! ## Tokens -/

/-- The runs of two lines with a blank between them. -/
theorem lineRuns_join (a b : String) :
    lineRuns (a ++ " " ++ b) =
      lineRuns a ++ (lineRuns b).map fun r => ⟨a.utf8ByteSize + 1 + r.pos, r.items⟩ := by
  have hlist : (a ++ " " ++ b).toList = a.toList ++ ' ' :: b.toList := by simp
  have hblank : isSeparator ' ' = true := rfl
  unfold lineRuns
  rw [hlist, Text.runs_append_separator hblank (Char.utf8Size_pos ' '), ← Text.runs_add,
    Nat.zero_add, ← utf8ByteSize_eq_extent]
  rfl

/-- **A blank between two lines parts their tokens.** -/
theorem lineSymbols_join (a b : String) :
    lineSymbols (a ++ " " ++ b) = lineSymbols a ++ lineSymbols b := by
  simp [lineSymbols, lineTexts, lineRuns_join]

/-- If the tokens of two lines fit, those of the joined line do. -/
theorem firstTooLong?_join {nameLen : Nat} {a b : String} (ha : firstTooLong? nameLen a = none)
    (hb : firstTooLong? nameLen b = none) : firstTooLong? nameLen (a ++ " " ++ b) = none := by
  unfold firstTooLong? at ha hb ⊢
  rw [lineRuns_join, List.find?_append, ha, Option.none_or, List.find?_map]
  exact Option.map_eq_none_iff.2 hb

/-! ## Symbols -/

namespace Symbol

variable {d : Dict} {symbols before behind : List Symbol}

/-- The first fault of a row of symbols is in its front, or else behind it. -/
theorem faultFrom_append (d : Dict) (behind : List Symbol) : (symbols before : List Symbol) →
    faultFrom d before (symbols ++ behind) =
      (faultFrom d before symbols).or (faultFrom d (before ++ symbols) behind)
  | [], before => by rw [List.nil_append, faultFrom, Option.none_or, List.append_nil]
  | s :: rest, before => by
    rw [List.cons_append, faultFrom, faultFrom, faultFrom_append d behind rest, Option.or_assoc,
      List.append_assoc, List.singleton_append]

/-- Symbols that end as many branches as they open cause no fault behind them. -/
theorem faultFrom_behind {closed : List Symbol}
    (hclosed : closed.count .ifMark = closed.count .endMark) : (symbols before : List Symbol) →
      faultFrom d before symbols = none → faultFrom d (closed ++ before) symbols = none
  | [], _, _ => rfl
  | s :: rest, before, h => by
    rw [faultFrom, Option.or_eq_none_iff] at h ⊢
    refine ⟨?_, ?_⟩
    · have hs := h.1
      cases s with
      | branch | zbranch | ifMark => rfl
      | elseMark | endMark =>
        simp only [fault?, ite_eq_right_iff, reduceCtorEq, imp_false, List.count_append] at hs ⊢
        omega
      | word name =>
        simp only [fault?, ite_eq_right_iff, reduceCtorEq, imp_false] at hs ⊢
        exact hs
    · rw [List.append_assoc]
      exact faultFrom_behind hclosed rest (before ++ [s]) h.2

/-- A symbol without fault ends no branch that is not open. -/
theorem count_le_of_fault? {s : Symbol} (hs : s.fault? d before = none)
    (h : before.count .endMark ≤ before.count .ifMark) :
    (before ++ [s]).count .endMark ≤ (before ++ [s]).count .ifMark := by
  cases s with
  | endMark =>
    simp only [fault?, ite_eq_right_iff, reduceCtorEq, imp_false] at hs
    simp only [List.count_append, List.count_singleton_self]
    omega
  | ifMark =>
    simp
    omega
  | _ => simpa using h

/-- Without a fault no more ENDs are met than IFs. -/
theorem count_le_of_faultFrom : (symbols before : List Symbol) →
    faultFrom d before symbols = none → before.count .endMark ≤ before.count .ifMark →
      (before ++ symbols).count .endMark ≤ (before ++ symbols).count .ifMark
  | [], before, _, h => by rwa [List.append_nil]
  | s :: rest, before, hf, h => by
    rw [faultFrom, Option.or_eq_none_iff] at hf
    have ih := count_le_of_faultFrom rest (before ++ [s]) hf.2 (count_le_of_fault? hf.1 h)
    rwa [List.append_assoc] at ih

/-! ## What closes a branch -/

/-- What comes behind does not change what closes a branch. -/
theorem closer_append (behind : List Symbol) : (symbols : List Symbol) → {depth n : Nat} →
    closer depth symbols = some n → closer depth (symbols ++ behind) = some n
  | s :: rest, depth, n, h => by
    have hstep : ∀ k, (closer k rest).map (· + 1) = some n →
        (closer k (rest ++ behind)).map (· + 1) = some n := by
      intro k hk
      obtain ⟨i, hi, rfl⟩ := Option.map_eq_some_iff.1 hk
      rw [closer_append behind rest hi]
      rfl
    cases s with
    | elseMark | endMark =>
      cases depth with
      | zero => exact h
      | succ depth => exact hstep _ h
    | _ => exact hstep _ h

/-- Where a branch is not closed, no more branches are ended than have been opened besides. -/
theorem count_le_of_closer_eq_none : (symbols : List Symbol) → {depth : Nat} →
    closer depth symbols = none → symbols.count .endMark ≤ depth + symbols.count .ifMark
  | [], _, _ => Nat.zero_le _
  | s :: rest, depth, h => by
    have ih : ∀ k, (closer k rest).map (· + 1) = none →
        rest.count .endMark ≤ k + rest.count .ifMark := fun k hk =>
      count_le_of_closer_eq_none rest (Option.map_eq_none_iff.1 hk)
    cases s with
    | ifMark =>
      have := ih (depth + 1) h
      simp
      omega
    | elseMark =>
      cases depth with
      | zero => cases h
      | succ depth => simpa using ih (depth + 1) h
    | endMark =>
      cases depth with
      | zero => cases h
      | succ depth =>
        have := ih depth h
        simp
        omega
    | _ => simpa using ih depth h

/-- A branch is closed within its line if as many branches are ended as opened in all. -/
theorem exists_closer {s : Symbol} {rest : List Symbol} (hs : s.fault? d before = none)
    (hopen : s = .ifMark ∨ s = .elseMark) (h : before.count .endMark ≤ before.count .ifMark)
    (hlevel : (before ++ s :: rest).count .ifMark = (before ++ s :: rest).count .endMark) :
    ∃ n, closer 0 rest = some n := by
  apply Option.ne_none_iff_exists'.1
  intro hnone
  have hcount := count_le_of_closer_eq_none rest hnone
  rcases hopen with rfl | rfl
  · simp only [List.count_append, List.count_cons_self] at hlevel
    simp at hlevel
    omega
  · simp only [fault?, ite_eq_right_iff, reduceCtorEq, imp_false] at hs
    simp at hlevel
    omega

/-! ## The image of a joined line -/

/-- What a symbol registers is no matter of what comes behind a line that has closed its
branches. -/
theorem fresh?_append {s : Symbol} {rest : List Symbol} (behind : List Symbol)
    (h : s = .ifMark ∨ s = .elseMark → ∃ n, closer 0 rest = some n) :
    s.fresh? d (rest ++ behind) = s.fresh? d rest := by
  cases s with
  | ifMark =>
    obtain ⟨n, hn⟩ := h (.inl rfl)
    rw [fresh?, fresh?, hn, closer_append behind rest hn]
  | elseMark =>
    obtain ⟨n, hn⟩ := h (.inr rfl)
    rw [fresh?, fresh?, hn, closer_append behind rest hn]
  | _ => rfl

/-- **A line that has closed its branches** registers the same whatever comes behind it. -/
theorem freshEntries_append (behind : List Symbol) : (symbols before : List Symbol) →
    faultFrom d before symbols = none → before.count .endMark ≤ before.count .ifMark →
      (before ++ symbols).count .ifMark = (before ++ symbols).count .endMark →
        freshEntries d (symbols ++ behind) = freshEntries d symbols ++ freshEntries d behind
  | [], _, _, _, _ => rfl
  | s :: rest, before, hf, h, hlevel => by
    rw [faultFrom, Option.or_eq_none_iff] at hf
    have hlevel' : ((before ++ [s]) ++ rest).count .ifMark =
        ((before ++ [s]) ++ rest).count .endMark := by
      rwa [List.append_assoc]
    have ih := freshEntries_append behind rest (before ++ [s]) hf.2 (count_le_of_fault? hf.1 h)
      hlevel'
    have hsame : s.fresh? d (rest ++ behind) = s.fresh? d rest :=
      fresh?_append behind fun hopen => exists_closer hf.1 hopen h hlevel
    rw [List.cons_append, freshEntries, freshEntries, ih, hsame, List.append_assoc]

/-- Whether a symbol registers anything is no matter of what comes behind it. -/
theorem length_fresh?_append (s : Symbol) (rest behind : List Symbol) :
    (s.fresh? d (rest ++ behind)).toList.length = (s.fresh? d rest).toList.length := by
  cases s <;> rfl

/-- There is a reference for every symbol. -/
theorem length_slotRefs : (symbols : List Symbol) → (next : Ref) →
    (slotRefs d next symbols).length = symbols.length
  | [], _ => rfl
  | _ :: rest, _ => congrArg (· + 1) (length_slotRefs rest _)

/-- The slots of a joined line are those of the one line and then of the other. -/
theorem slotRefs_append (behind : List Symbol) : (symbols : List Symbol) → (next : Ref) →
    slotRefs d next (symbols ++ behind) =
      slotRefs d next symbols ++ slotRefs d (next + (freshEntries d symbols).length) behind
  | [], next => rfl
  | s :: rest, next => by
    rw [List.cons_append, slotRefs, slotRefs, length_fresh?_append, slotRefs_append behind rest,
      freshEntries, List.length_append, Nat.add_assoc, List.cons_append]

end Symbol

/-! ## Blame -/

section Blame

variable {d : Dict} {symbols symbols' : List Symbol}

/-- Nothing is to blame: no symbol is at fault, every IF is ended, no branch lands outside. -/
theorem blame?_eq_none_iff :
    blame? d symbols = none ↔
      Symbol.faultFrom d [] symbols = none ∧
        ¬ symbols.count .endMark < symbols.count .ifMark ∧ firstOutside? symbols = none := by
  unfold blame?
  rw [firstBad?_eq_faultFrom]
  cases Symbol.faultFrom d [] symbols with
  | some e => simp
  | none =>
    dsimp only
    split
    · next h => simp [h]
    · next h => simp [h]

/-- A line without blame ends as many branches as it opens. -/
theorem count_eq_of_blame? (h : blame? d symbols = none) :
    symbols.count .ifMark = symbols.count .endMark := by
  obtain ⟨hfault, hcount, _⟩ := blame?_eq_none_iff.1 h
  have := Symbol.count_le_of_faultFrom symbols [] hfault (Nat.le_refl _)
  rw [List.nil_append] at this
  omega

/-- A branch written by hand that lands inside still does with more tokens around it. -/
theorem outside?_eq_none_of_le {s : Symbol} {count count' t : Nat} (k : Nat)
    (hcount : k + count ≤ count') (h : s.outside? count t = none) :
    s.outside? count' (k + t) = none := by
  cases s with
  | branch n | zbranch n =>
    simp only [Symbol.outside?, ite_eq_left_iff, reduceCtorEq, imp_false, Decidable.not_not]
      at h ⊢
    omega
  | _ => rfl

/-- No branch lands outside exactly if none of the symbols does. -/
theorem firstOutside?_eq_none_iff :
    firstOutside? symbols = none ↔
      ∀ (t : Nat) (s : Symbol), symbols[t]? = some s → s.outside? symbols.length t = none := by
  unfold firstOutside?
  rw [List.findSome?_eq_none_iff]
  constructor
  · intro h t s hs
    exact h (s, t) (List.mk_mem_zipIdx_iff_getElem?.2 hs)
  · rintro h ⟨s, t⟩ hmem
    exact h t s (List.mk_mem_zipIdx_iff_getElem?.1 hmem)

/-- Branches that land inside two lines land inside the joined line. -/
theorem firstOutside?_append (h : firstOutside? symbols = none)
    (h' : firstOutside? symbols' = none) : firstOutside? (symbols ++ symbols') = none := by
  rw [firstOutside?_eq_none_iff] at h h' ⊢
  intro t s hs
  rw [List.length_append]
  rcases Nat.lt_or_ge t symbols.length with ht | ht
  · rw [List.getElem?_append_left ht] at hs
    rw [← Nat.zero_add t]
    exact outside?_eq_none_of_le 0 (by omega) (h t s hs)
  · obtain ⟨k, rfl⟩ := Nat.exists_eq_add_of_le ht
    rw [List.getElem?_append_right ht, Nat.add_sub_cancel_left] at hs
    exact outside?_eq_none_of_le _ (Nat.le_refl _) (h' k s hs)

/-- **Lines without blame can be joined.** -/
theorem blame?_append (h : blame? d symbols = none) (h' : blame? d symbols' = none) :
    blame? d (symbols ++ symbols') = none := by
  have hcount := count_eq_of_blame? h
  have hcount' := count_eq_of_blame? h'
  rw [blame?_eq_none_iff] at h h' ⊢
  refine ⟨?_, ?_, firstOutside?_append h.2.2 h'.2.2⟩
  · have hbehind := Symbol.faultFrom_behind hcount symbols' [] h'.1
    rw [List.append_nil] at hbehind
    rw [Symbol.faultFrom_append, h.1, Option.none_or, List.nil_append, hbehind]
  · rw [List.count_append, List.count_append]
    omega

end Blame

/-! ## Lines that compile -/

namespace Dict

/-- The dictionary with entries more that nobody can ask for. -/
def append (d : Dict) (entries : List Entry) : Dict :=
  { d with entries := d.entries ++ entries.toArray }

variable {d d' : Dict} {entries entries' : List Entry}

/-- Appending twice is appending once. -/
theorem append_append (d : Dict) (entries entries' : List Entry) :
    (d.append entries).append entries' = d.append (entries ++ entries') := by
  simp [append]

/-- Appended entries count. -/
theorem size_append (d : Dict) (entries : List Entry) :
    (d.append entries).size = d.size + entries.length := by
  simp [append, size]

/-- The entries before the appended ones stay. -/
theorem get?_append_of_lt {r : Ref} (h : r < d.size) : (d.append entries).get? r = d.get? r :=
  Array.getElem?_append_left h

/-- The new entries have the next references, in order. -/
theorem get?_append (d : Dict) (entries : List Entry) (i : Nat) :
    (d.append entries).get? (d.size + i) = entries[i]? := by
  unfold append get? size
  rw [Array.getElem?_append_right (Nat.le_add_right _ _), Nat.add_sub_cancel_left,
    List.getElem?_toArray]

/-- Appending entries extends the dictionary. -/
theorem extends_append (d : Dict) (entries : List Entry) : d.Extends (d.append entries) :=
  ⟨fun _ => get?_append_of_lt, List.suffix_refl _⟩

/-- What a dictionary has grown into is known from what is new. -/
theorem ExtendsUnnamed.eq_append (h : d.ExtendsUnnamed d')
    (hnew : ∀ i, d'.get? (d.size + i) = entries[i]?) : d' = d.append entries := by
  have hentries : d'.entries = (d.append entries).entries := by
    apply Array.ext_getElem?
    intro r
    rcases Nat.lt_or_ge r d.size with hr | hr
    · exact (h.get?_of_lt r hr).trans (get?_append_of_lt hr).symm
    · obtain ⟨i, rfl⟩ := Nat.exists_eq_add_of_le hr
      exact (hnew i).trans (get?_append d entries i).symm
  cases d'
  simp only [append, mk.injEq]
  exact ⟨hentries, h.named⟩

end Dict

namespace Machine

variable {m m₁ ma mb : Machine} {line a b : String} {w wa wb : Option Word}

/-- The machine with another dictionary. -/
def withDict (m : Machine) (dict : Dict) : Machine :=
  { m with dict }

/-- **A line without blame compiles**, and adds its entries to the dictionary. -/
theorem exists_compile_eq (hnop : m.dict.get? nop = some (.primitive "NOP" .nop))
    (hline : line.utf8ByteSize < 2 ^ 63) (hfit : firstTooLong? m.limits.nameLen line = none)
    (hblame : blame? m.dict (lineSymbols line) = none) :
    ∃ w, m.compile line =
      (.ok w, m.withDict (m.dict.append (Symbol.freshEntries m.dict (lineSymbols line)))) := by
  have hmax : (lineSymbols line).length < 2 ^ 63 - 1 := by
    have := two_mul_length_lineRuns_le line
    rw [length_lineSymbols]
    omega
  obtain ⟨w, d', hw, _, hnew, hgrows⟩ := exists_image_of_blame? hnop hmax hblame
  obtain rfl := hgrows.eq_append hnew
  rw [compile_eq, hfit]
  by_cases hblank : lineSymbols line = []
  · refine ⟨none, ?_⟩
    simp [hblank, Symbol.freshEntries, withDict, Dict.append]
  · refine ⟨some w, ?_⟩
    simp only [if_neg hblank, hw]
    rfl

/-- **A line that compiles is not to be blamed.** -/
theorem blame?_eq_none_of_compile (hnop : m.dict.get? nop = some (.primitive "NOP" .nop))
    (hline : line.utf8ByteSize < 2 ^ 63) (h : m.compile line = (.ok w, m₁)) :
    firstTooLong? m.limits.nameLen line = none ∧ blame? m.dict (lineSymbols line) = none ∧
      w.isSome = !(lineSymbols line).isEmpty := by
  have hverdict := compile_eq_verdict hnop hline
  rw [h, verdict] at hverdict
  split at hverdict
  · cases hverdict
  · next hfit =>
    refine ⟨hfit, ?_⟩
    split at hverdict
    · next hblank =>
      rw [hblank]
      exact ⟨rfl, Except.ok.inj hverdict⟩
    · next hblank =>
      cases hblame : blame? m.dict (lineSymbols line) with
      | some e =>
        rw [hblame] at hverdict
        cases hverdict
      | none =>
        rw [hblame] at hverdict
        refine ⟨rfl, (Except.ok.inj hverdict).trans ?_⟩
        rw [List.isEmpty_eq_false_iff.2 hblank]
        rfl

/-! ## Running in a larger dictionary -/

/-- Machines side by side behind the same text differ in their dictionaries alone. -/
theorem Beside.eq_withDict {c : String} {d d' : Dict} (h : Machine.Beside c c d d' m m₁) :
    m₁ = m.withDict d' := by
  obtain ⟨_, hright, hlimits, hbeside⟩ := h
  obtain ⟨limits, dict, bench⟩ := m
  obtain ⟨limits', dict', bench'⟩ := m₁
  obtain rfl : dict' = d' := hright
  obtain rfl : limits = limits' := hlimits
  obtain rfl : bench = bench' := eq_of_beside hbeside
  rfl

/-- **A word of the standard set runs the same in a larger dictionary.** -/
theorem goesOn_withDict (hsound : m.dict.Sound Primitive.Standard) {d : Dict}
    (hgrows : m.dict.Extends d) {body : Array Ref} (hbody : Jump.check m.dict body = .ok ())
    (ip : Nat) (o : Ending) :
    goesOn body ip (m.withDict d) o ↔
      ∃ r m₁, goesOn body ip m (r, m₁) ∧ o = (r, m₁.withDict d) := by
  have hbeside : Thread.Beside m.dict.Old m.bench.console m.bench.console m.dict d
      ⟨m, [.code body ip 0]⟩ ⟨m.withDict d, [.code body ip 0]⟩ :=
    ⟨⟨rfl, rfl, rfl, .start _ _ _⟩, .cons (.code _ _ (Dict.forall₂_old_of_check hbody)) .nil⟩
  obtain ⟨hforth, hback⟩ := Thread.endsIn_beside (hsound.matches_old hgrows) hbeside
  constructor
  · intro ho
    obtain ⟨⟨r, m₁⟩, hx, hend⟩ := hback o ho
    exact ⟨r, m₁, hx, Prod.ext hend.result.symm hend.machine.eq_withDict⟩
  · rintro ⟨r, m₁, hx, rfl⟩
    obtain ⟨⟨r', m₂⟩, ho, hresult, hmachine⟩ := hforth _ hx
    obtain rfl : r = r' := hresult
    rw [← hmachine.eq_withDict]
    exact ho

/-- The dictionary is left as it is. -/
theorem dict_of_goesOn (hsound : m.dict.Sound Primitive.Standard) {body : Array Ref} {ip : Nat}
    (hbody : Jump.check m.dict body = .ok ()) {r : Except Error Unit}
    (h : goesOn body ip m (r, m₁)) : m₁.dict = m.dict := by
  obtain ⟨_, _, _, heq⟩ := (goesOn_withDict hsound (.refl _) hbody ip _).1 h
  cases heq
  rfl

/-- What comes behind such a word starts on the machine that the word leaves, with the larger
dictionary. -/
theorem goesOn_withDict_andThen (hsound : m.dict.Sound Primitive.Standard) {d : Dict}
    (hgrows : m.dict.Extends d) {body : Array Ref} (hbody : Jump.check m.dict body = .ok ())
    (ip : Nat) (y : Behaviour) (o : Ending) :
    (goesOn body ip).andThen y (m.withDict d) o ↔
      ∃ r m₁, goesOn body ip m (r, m₁) ∧
        match r with
        | .ok () => y (m₁.withDict d) o
        | .error e => o = (.error e, m₁.withDict d) := by
  constructor
  · rintro ⟨r, m₂, hx, hy⟩
    obtain ⟨r', m₁, hx', heq⟩ := (goesOn_withDict hsound hgrows hbody ip _).1 hx
    cases heq
    exact ⟨r, m₁, hx', hy⟩
  · rintro ⟨r, m₁, hx, hy⟩
    exact ⟨r, m₁.withDict d, (goesOn_withDict hsound hgrows hbody ip _).2 ⟨r, m₁, hx, rfl⟩, hy⟩

/-! ## The joined line -/

/-- What a line that compiles adds to the dictionary. -/
theorem eq_withDict_of_compile (hnop : m.dict.get? nop = some (.primitive "NOP" .nop))
    (hline : line.utf8ByteSize < 2 ^ 63) (h : m.compile line = (.ok w, m₁)) :
    m₁ = m.withDict (m.dict.append (Symbol.freshEntries m.dict (lineSymbols line))) := by
  obtain ⟨hfit, hblame, _⟩ := blame?_eq_none_of_compile hnop hline h
  obtain ⟨w', hw'⟩ := exists_compile_eq hnop hline hfit hblame
  rw [h] at hw'
  exact (Prod.mk.inj hw').2

/-- **Two lines that compile make one that compiles**: it has the slots of the first, and then those
of the second with the next references. -/
theorem exists_compile_join (hnop : m.dict.get? nop = some (.primitive "NOP" .nop))
    (ha : m.compile a = (.ok wa, ma)) (hb : m.compile b = (.ok wb, mb))
    (hsize : (a ++ " " ++ b).utf8ByteSize < 2 ^ 63) :
    ∃ w, m.compile (a ++ " " ++ b) =
        (.ok w, ma.withDict (ma.dict.append (Symbol.freshEntries m.dict (lineSymbols b)))) ∧
      w.isSome = (wa.isSome || wb.isSome) ∧
      (slotsOf w).toList =
        (slotsOf wa).toList ++ Symbol.slotRefs m.dict ma.dict.size (lineSymbols b) := by
  have hbytes : (a ++ " " ++ b).utf8ByteSize = a.utf8ByteSize + 1 + b.utf8ByteSize := by
    rw [String.utf8ByteSize_append, String.utf8ByteSize_append]
    rfl
  obtain ⟨hfita, hblamea, hsomea⟩ := blame?_eq_none_of_compile hnop (by omega) ha
  obtain ⟨hfitb, hblameb, hsomeb⟩ := blame?_eq_none_of_compile hnop (by omega) hb
  obtain rfl := eq_withDict_of_compile hnop (by omega) ha
  have hblame : blame? m.dict (lineSymbols (a ++ " " ++ b)) = none := by
    rw [lineSymbols_join]
    exact blame?_append hblamea hblameb
  have hfresh := Symbol.freshEntries_append (lineSymbols b) (lineSymbols a) []
    (blame?_eq_none_iff.1 hblamea).1 (Nat.le_refl _) (count_eq_of_blame? hblamea)
  obtain ⟨w, hw⟩ := exists_compile_eq hnop hsize (firstTooLong?_join hfita hfitb) hblame
  have hslots : (slotsOf w).toList = _ := toList_body_of_compile hw
  have hslotsa : (slotsOf wa).toList = _ := toList_body_of_compile ha
  have hsome := (blame?_eq_none_of_compile hnop hsize hw).2.2
  rw [lineSymbols_join] at hw hslots hsome
  refine ⟨w, ?_, ?_, ?_⟩
  · rw [hw, hfresh]
    simp only [withDict, Dict.append_append]
  · rw [hsome, hsomea, hsomeb]
    cases lineSymbols a <;> simp
  · rw [hslots, hslotsa, Symbol.slotRefs_append]
    simp only [withDict, Dict.size_append]

/-- **The second line compiles behind the first** as it does without it, with the next
references. -/
theorem exists_compile_behind (h : Reachable (Command.Binds Primitive.Standard) m)
    (hb : m.compile b = (.ok wb, mb)) (hline : b.utf8ByteSize < 2 ^ 63)
    (hlimits : m₁.limits = m.limits) (hgrows : m.dict.ExtendsUnnamed m₁.dict) :
    ∃ w, m₁.compile b =
        (.ok w, m₁.withDict (m₁.dict.append (Symbol.freshEntries m.dict (lineSymbols b)))) ∧
      (slotsOf w).toList = Symbol.slotRefs m.dict m₁.dict.size (lineSymbols b) := by
  have hsound : m.dict.Sound Primitive.Standard := h.sound fun _ h => h
  have halike := hsound.alike_old h.indexed hgrows
  obtain ⟨hfit, hblame, _⟩ := blame?_eq_none_of_compile h.get?_nop hline hb
  have hblame₁ : blame? m₁.dict (lineSymbols b) = none := by
    rw [blame?_eq_none_iff, ← Symbol.faultFrom_eq_of_alike halike]
    exact blame?_eq_none_iff.1 hblame
  obtain ⟨w, hw⟩ := exists_compile_eq (hgrows.toExtends.get? h.get?_nop) hline
    (by rwa [hlimits]) hblame₁
  have hslots : (slotsOf w).toList = _ := toList_body_of_compile hw
  rw [← Symbol.freshEntries_eq halike] at hw
  refine ⟨w, hw, ?_⟩
  -- an old reference stands for itself, and what is new has the same references
  have hsame : List.Forall₂ Eq (Symbol.slotRefs m.dict m₁.dict.size (lineSymbols b))
      (Symbol.slotRefs m₁.dict m₁.dict.size (lineSymbols b)) :=
    Symbol.forall₂_slotRefs halike (fun _ _ hr => hr.1) _ [] _ _
      (blame?_eq_none_iff.1 hblame).1 fun _ _ => rfl
  rw [hslots]
  exact (List.forall₂_eq_eq_eq ▸ hsame).symm

/-- The entries in the slots of the second line are the same behind the first. -/
theorem map_get?_slotRefs (h : Reachable (Command.Binds Primitive.Standard) m)
    (hb : m.compile b = (.ok wb, mb)) (hline : b.utf8ByteSize < 2 ^ 63)
    (hgrows : m.dict.ExtendsUnnamed m₁.dict) :
    (Symbol.slotRefs m.dict m₁.dict.size (lineSymbols b)).map
        (m₁.dict.append (Symbol.freshEntries m.dict (lineSymbols b))).get? =
      (slotsOf wb).toList.map mb.dict.get? := by
  have hsound : m.dict.Sound Primitive.Standard := h.sound fun _ h => h
  obtain ⟨_, hblame, _⟩ := blame?_eq_none_of_compile h.get?_nop hline hb
  have hslots : (slotsOf wb).toList = _ := toList_body_of_compile hb
  obtain rfl := eq_withDict_of_compile h.get?_nop hline hb
  rw [hslots, ← List.forall₂_eq_eq_eq, List.forall₂_map_left_iff, List.forall₂_map_right_iff]
  refine Symbol.forall₂_slotRefs (hsound.alike_old h.indexed (.refl _)) ?_ _ [] _ _
    (blame?_eq_none_iff.1 hblame).1 ?_
  · rintro r _ ⟨rfl, hr⟩
    rw [Dict.get?_append_of_lt (Nat.lt_of_lt_of_le hr hgrows.toExtends.size_le),
      hgrows.get?_of_lt r hr]
    exact (Dict.get?_append_of_lt hr).symm
  · intro i _
    exact (Dict.get?_append _ _ i).trans (Dict.get?_append _ _ i).symm

/-- A word has too few slots for a wild jump. -/
theorem size_slotsOf_lt (hline : line.utf8ByteSize < 2 ^ 63) (h : m.compile line = (.ok w, m₁)) :
    (slotsOf w).size < 2 ^ 63 - 1 := by
  have hslots : (slotsOf w).toList = _ := toList_body_of_compile h
  have hruns := two_mul_length_lineRuns_le line
  rw [← Array.length_toList, hslots, Symbol.length_slotRefs, length_lineSymbols]
  omega

/-- **To go on behind the first line** is to evaluate the second. -/
theorem goesOn_behind_iff (h : Reachable (Command.Binds Primitive.Standard) m)
    (hb : m.compile b = (.ok wb, mb)) (hline : b.utf8ByteSize < 2 ^ 63)
    (hlimits : m₁.limits = m.limits) (hgrows : m.dict.ExtendsUnnamed m₁.dict)
    {front : List Ref} {whole : Array Ref} (hsize : whole.size < 2 ^ 63 - 1)
    (hwhole : whole.toList = front ++ Symbol.slotRefs m.dict m₁.dict.size (lineSymbols b))
    (o : Ending) :
    goesOn whole front.length
        (m₁.withDict (m₁.dict.append (Symbol.freshEntries m.dict (lineSymbols b)))) o ↔
      m₁.EvalsTo b o := by
  obtain ⟨w, hw, hslots⟩ := exists_compile_behind h hb hline hlimits hgrows
  have hstretch : Stretch (slotsOf w) whole front.length :=
    .of_toList [] hsize (by rw [hwhole, hslots, List.append_nil])
  have hlast : front.length + (slotsOf w).size = whole.size := by
    rw [← Array.length_toList, ← Array.length_toList, hwhole, hslots, List.length_append]
  rw [evalsTo_iff_goesOn hw]
  exact hstretch.goesOn_last_iff (check_slotsOf hw) (Nat.zero_le _) hlast

/-! ## The theorem -/

/-- **Lines compose.**  Let two lines compile on a machine that has the standard set at most.  Then
the line that joins them by a blank compiles too, into the slots of the one and then of the other,
with the same entries in them; and it comes to what comes of evaluating the first and then, if that
succeeds, the second.  If the first fails, only the dictionary knows of the second.  The bound on
the size of a line is that of every text in memory. -/
theorem lines_compose (h : Reachable (Command.Binds Primitive.Standard) m)
    (ha : m.compile a = (.ok wa, ma)) (hb : m.compile b = (.ok wb, mb))
    (hsize : (a ++ " " ++ b).utf8ByteSize < 2 ^ 63) :
    ∃ w m', m.compile (a ++ " " ++ b) = (.ok w, m') ∧
      w.isSome = (wa.isSome || wb.isSome) ∧
      (slotsOf w).toList.map m'.dict.get? =
        (slotsOf wa).toList.map ma.dict.get? ++ (slotsOf wb).toList.map mb.dict.get? ∧
      ∀ o, m.EvalsTo (a ++ " " ++ b) o ↔
        ∃ r m₁, m.EvalsTo a (r, m₁) ∧
          match r with
          | .ok () => m₁.EvalsTo b o
          | .error e => o = (.error e, m₁.withDict m'.dict) := by
  have hbytes := hsize
  rw [String.utf8ByteSize_append, String.utf8ByteSize_append] at hbytes
  have hline : b.utf8ByteSize < 2 ^ 63 := by omega
  have hgrows : m.dict.ExtendsUnnamed ma.dict := by
    have hunnamed := compile_extendsUnnamed m a
    rwa [ha] at hunnamed
  have hsound : ma.dict.Sound Primitive.Standard :=
    Dict.Sound.extendsUnnamed (h.sound fun _ h => h) hgrows
  have hma := eq_withDict_of_compile h.get?_nop (by omega) ha
  have hchecka := check_slotsOf ha
  obtain ⟨w, hw, hsome, hslots⟩ := exists_compile_join h.get?_nop ha hb hsize
  have hextends := Dict.extends_append ma.dict (Symbol.freshEntries m.dict (lineSymbols b))
  refine ⟨w, _, hw, hsome, ?_, ?_⟩
  · have hfront : (slotsOf wa).toList.map
        (ma.dict.append (Symbol.freshEntries m.dict (lineSymbols b))).get? =
          (slotsOf wa).toList.map ma.dict.get? := by
      apply List.map_congr_left
      intro r hr
      exact hextends.get?_of_lt r (Dict.lt_size_of_check hchecka (Array.mem_toList_iff.1 hr))
    rw [hslots, List.map_append, ← map_get?_slotRefs h hb hline hgrows, ← hfront]
    rfl
  · intro o
    have hstretch : Stretch (slotsOf wa) (slotsOf w) ([] : List Ref).length :=
      .of_toList _ (size_slotsOf_lt hsize hw) hslots
    have hcheck : Jump.check (ma.withDict (ma.dict.append
        (Symbol.freshEntries m.dict (lineSymbols b)))).dict (slotsOf wa) = .ok () :=
      hextends.check_eq_ok hchecka
    rw [evalsTo_iff_goesOn hw]
    refine (hstretch.goesOn_iff hcheck (Nat.zero_le _)).trans ?_
    rw [goesOn_withDict_andThen hsound hextends hchecka]
    refine exists_congr fun r => exists_congr fun m₁ => ?_
    rw [evalsTo_iff_goesOn ha]
    refine and_congr_right fun hx => ?_
    cases r with
    | error e => rfl
    | ok =>
      have hdict : m₁.dict = ma.dict := dict_of_goesOn hsound hchecka hx
      have hlimits : m₁.limits = m.limits :=
        (Thread.EndsIn.grows hx).limits.trans (by rw [hma]; rfl)
      rw [← hdict] at hgrows hslots ⊢
      have hbehind := goesOn_behind_iff h hb hline hlimits hgrows (size_slotsOf_lt hsize hw) hslots o
      rw [Array.length_toList] at hbehind
      rw [← hbehind, List.length_nil, Nat.zero_add]

/-- A branch to the end of a line goes to the line behind it. -/
theorem lines_compose_branch :
    ("0 ZBRANCH1 7" ++ " " ++ "DUP ADD").utf8ByteSize < 2 ^ 63 ∧
      ∃ w m', (boot {}).load.2.compile ("0 ZBRANCH1 7" ++ " " ++ "DUP ADD") = (.ok w, m') ∧
        ∀ o, (boot {}).load.2.EvalsTo ("0 ZBRANCH1 7" ++ " " ++ "DUP ADD") o ↔
          ∃ r m₁, (boot {}).load.2.EvalsTo "0 ZBRANCH1 7" (r, m₁) ∧
            match r with
            | .ok () => m₁.EvalsTo "DUP ADD" o
            | .error e => o = (.error e, m₁.withDict m'.dict) := by
  have hreach : Reachable (Command.Binds Primitive.Standard) (boot {}).load.2 :=
    .load (.of_primitives_eq_nil rfl) {}
  obtain ⟨w, m', hw, _, _, hruns⟩ := lines_compose hreach
    (a := "0 ZBRANCH1 7") (b := "DUP ADD") rfl rfl (by decide)
  exact ⟨by decide, w, m', hw, hruns⟩

end Machine

end Threaded
