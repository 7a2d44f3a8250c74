import Threaded.Proofs.History
import Threaded.Proofs.Tokens

/-!
# The verdict on a line

Which lines compile, and what is blamed in one that does not, read off the text of the line and
the dictionary before it.  There are five kinds of blame, and each is only looked for when there
is nothing to blame of the kinds before it:

1. the first token that is too long;
2. the first token at fault: a word that is neither known nor a number, or an ELSE or END that no
   IF waits for (`firstBad?`);
3. the end of the line, when an IF still waits;
4. the first branch written by hand that lands outside the line (`firstOutside?`).

A line without tokens is not blamed and makes no word.  `compile_verdict` says that this is what
the assembler answers, for every line and every reachable machine.  So nothing else that the
assembler could fail with ever comes up: its stack of open branches has room, what it closes is a
branch, and the branches it makes itself land on the word.  The last of these is seen on the image
of the line, slot by slot (`slotFault?_ref`).
-/

namespace Threaded

/-! ## What is blamed -/

/-- What is wrong with the first token at fault. -/
def firstBad? (d : Dict) (symbols : List Symbol) : Option Error :=
  symbols.zipIdx.findSome? fun (s, t) => s.fault? d (symbols.take t)

/-- What is wrong with a symbol in slot `t` of `count` if it is a branch written by hand. -/
def Symbol.outside? (count t : Nat) : Symbol → Option Error
  | .branch n | .zbranch n =>
    if 0 ≤ (t : Int) + n.toInt + 1 ∧ (t : Int) + n.toInt + 1 ≤ count then none
    else some (.jumpOutOfBounds t (Int64.ofIntClamp (t + n.toInt + 1)))
  | .ifMark | .elseMark | .endMark | .word _ => none

/-- What is wrong with the first branch written by hand that lands outside. -/
def firstOutside? (symbols : List Symbol) : Option Error :=
  symbols.zipIdx.findSome? fun (s, t) => s.outside? symbols.length t

/-- What is wrong with the symbols of a line, if anything is. -/
def blame? (d : Dict) (symbols : List Symbol) : Option Error :=
  match firstBad? d symbols with
  | some e => some e
  | none =>
    if symbols.count .endMark < symbols.count .ifMark then some (.danglingIf symbols.length)
    else firstOutside? symbols

/-- Whether a line makes a word, or what is wrong with it. -/
def verdict (nameLen : Nat) (d : Dict) (line : String) : Except Error Bool :=
  match firstTooLong? nameLen line with
  | some r => .error (.tokenTooLong (r.pos + nameLen))
  | none =>
    if lineSymbols line = [] then .ok false
    else (Error.raised (blame? d (lineSymbols line))).map fun () => true

/-- The search for a fault that the assembler makes is the search from left to right. -/
theorem Symbol.faultFrom_eq (d : Dict) : (rest before : List Symbol) →
    faultFrom d before rest =
      (rest.zipIdx before.length).findSome? fun (s, t) => s.fault? d ((before ++ rest).take t)
  | [], _ => rfl
  | s :: rest, before => by
    have ih := faultFrom_eq d rest (before ++ [s])
    rw [List.length_append, List.length_singleton, List.append_assoc,
      List.singleton_append] at ih
    rw [faultFrom, ih, List.zipIdx_cons, List.findSome?_cons]
    dsimp only
    rw [List.take_left]
    cases s.fault? d before <;> rfl

/-- The symbol that is blamed first is the first at fault from the start. -/
theorem firstBad?_eq_faultFrom (d : Dict) (symbols : List Symbol) :
    firstBad? d symbols = Symbol.faultFrom d [] symbols :=
  (Symbol.faultFrom_eq d symbols []).symm

/-- A fault blames the place behind the symbols before it. -/
theorem Symbol.eq_of_fault?_eq_some {d : Dict} {before : List Symbol} {s : Symbol} {e : Error}
    (h : s.fault? d before = some e) :
    (∃ name, e = .unresolvedSymbol before.length name) ∨
      e = .unmatchedElseOrEnd before.length := by
  cases s with
  | branch | zbranch | ifMark => cases h
  | elseMark | endMark =>
    rw [fault?] at h
    split at h
    · exact .inr (Option.some.inj h).symm
    · simp at h
  | word name =>
    rw [fault?] at h
    split at h
    · exact .inl ⟨name, (Option.some.inj h).symm⟩
    · simp at h

/-- **What is blamed in a line** is one of its tokens, or its end. -/
theorem blame?_cases {d : Dict} {symbols : List Symbol} {e : Error}
    (h : blame? d symbols = some e) :
    (∃ t < symbols.length, (∃ name, e = .unresolvedSymbol t name) ∨ e = .unmatchedElseOrEnd t) ∨
      e = .danglingIf symbols.length ∨
      ∃ t < symbols.length, ∃ target, e = .jumpOutOfBounds t target ∧
        firstOutside? symbols = some e := by
  unfold blame? at h
  split at h
  · next e' hbad =>
    obtain rfl := Option.some.inj h
    obtain ⟨⟨s, t⟩, hmem, hs⟩ := List.exists_of_findSome?_eq_some hbad
    have ht : t < symbols.length := List.snd_lt_of_mem_zipIdx hmem
    have hlen : (symbols.take t).length = t := List.length_take_of_le (Nat.le_of_lt ht)
    have hcases := Symbol.eq_of_fault?_eq_some hs
    rw [hlen] at hcases
    exact .inl ⟨t, ht, hcases⟩
  · split at h
    · exact .inr (.inl (Option.some.inj h).symm)
    · obtain ⟨⟨s, t⟩, hmem, hs⟩ := List.exists_of_findSome?_eq_some h
      have ht : t < symbols.length := List.snd_lt_of_mem_zipIdx hmem
      refine .inr (.inr ⟨t, ht, ?_⟩)
      cases s with
      | branch n | zbranch n =>
        simp only [Symbol.outside?] at hs
        split at hs
        · simp at hs
        · obtain rfl := Option.some.inj hs
          exact ⟨_, rfl, h⟩
      | ifMark | elseMark | endMark | word => cases hs

/-- A text without the first letter of BRANCH is no branch written by hand. -/
theorem Symbol.outside?_ofText {text : String} (h : 'B' ∉ text.toList) (count t : Nat) :
    (ofText text).outside? count t = none := by
  have hstem : ∀ stem : List Char, 'B' ∈ stem → offsetAfter? stem text.toList = none := by
    intro stem hstem
    unfold offsetAfter?
    cases hb : Text.behind? stem text.toList with
    | none => rfl
    | some rest =>
      rw [Text.behind?_eq_some_iff.1 hb] at h
      exact absurd (List.mem_append_left _ hstem) h
  unfold ofText
  rw [hstem _ (by decide), hstem _ (by decide)]
  split
  · rfl
  · split
    · rfl
    · split <;> rfl

/-- A line without a `B` has no branch by hand. -/
theorem firstOutside?_eq_none_of_notMem {line : String} (h : 'B' ∉ line.toList) :
    firstOutside? (lineSymbols line) = none := by
  apply List.findSome?_eq_none_iff.2
  rintro ⟨s, t⟩ hmem
  have hs : s ∈ lineSymbols line := List.fst_mem_of_mem_zipIdx hmem
  obtain ⟨text, htext, rfl⟩ := List.mem_map.1 hs
  obtain ⟨r, hr, rfl⟩ := List.mem_map.1 htext
  apply Symbol.outside?_ofText
  rw [String.toList_ofList]
  intro hB
  exact h ((Text.items_of_mem_runs hr).2 _ hB).1

/-! ## The branches of a word -/

namespace Symbol

/-- A branch is closed by a symbol that is there. -/
theorem closer_lt {depth n : Nat} {symbols : List Symbol} (h : closer depth symbols = some n) :
    n < symbols.length := by
  induction symbols generalizing depth n with
  | nil => cases h
  | cons s rest ih =>
    have hstep : ∀ k, (closer k rest).map (· + 1) = some n → n < (s :: rest).length := by
      intro k hk
      obtain ⟨i, hi, rfl⟩ := Option.map_eq_some_iff.1 hk
      have := ih hi
      rw [List.length_cons]
      omega
    cases s with
    | elseMark | endMark =>
      cases depth with
      | zero =>
        obtain rfl := Option.some.inj h
        exact Nat.succ_pos _
      | succ depth => exact hstep _ h
    | _ => exact hstep _ h

/-- **A branch that the assembler makes lands on the word**, also one that it leaves open. -/
theorem arm_lands {ip len : Nat} {rest : List Symbol} (hlen : ip + rest.length < len)
    (hmax : len < 2 ^ 63 - 1) :
    0 ≤ (ip : Int) + (arm (closer 0 rest)).toInt + 1 ∧
      (ip : Int) + (arm (closer 0 rest)).toInt + 1 ≤ len := by
  cases hc : closer 0 rest with
  | none =>
    have hzero : (arm none).toInt = 0 := by decide
    omega
  | some n =>
    have hn := closer_lt hc
    have harm : (arm (some n)).toInt = (n + 1 : Nat) := Cell.toInt_ofCount (by omega)
    omega

end Symbol

variable {d d' : Dict} {next ip len : Nat} {s : Symbol} {before rest : List Symbol}

/-- The entry of the first symbol is the first of the entries to come. -/
theorem get?_of_fresh? {e : Entry}
    (hfresh : ∀ i, d'.get? (next + i) = (Symbol.freshEntries d (s :: rest))[i]?)
    (he : s.fresh? d rest = some e) : d'.get? next = some e := by
  have hfirst := hfresh 0
  rw [Symbol.freshEntries, he] at hfirst
  exact hfirst

/-- The entries of the others come behind it. -/
theorem get?_behind_fresh?
    (hfresh : ∀ i, d'.get? (next + i) = (Symbol.freshEntries d (s :: rest))[i]?) (i : Nat) :
    d'.get? (next + (s.fresh? d rest).toList.length + i) = (Symbol.freshEntries d rest)[i]? := by
  rw [Nat.add_assoc, hfresh, Symbol.freshEntries,
    List.getElem?_append_right (Nat.le_add_right _ _), Nat.add_sub_cancel_left]

/-- **The slot of a symbol is at fault when the symbol is a branch written by hand that lands
outside**, and in no other case. -/
theorem slotFault?_ref (hnop : d.get? nop = some (.primitive "NOP" .nop)) (hgrows : d.Extends d')
    (hs : s.fault? d before = none)
    (hfresh : ∀ e, s.fresh? d rest = some e → d'.get? next = some e)
    (hlen : ip + rest.length < len) (hmax : len < 2 ^ 63 - 1) :
    Jump.slotFault? d' len ip (s.ref d next) = s.outside? len ip := by
  unfold Jump.slotFault?
  cases s with
  | branch n | zbranch n =>
    simp only [Symbol.ref, hfresh _ rfl]
    rfl
  | ifMark | elseMark =>
    simp only [Symbol.ref, hfresh _ rfl]
    exact if_pos (Symbol.arm_lands hlen hmax)
  | endMark =>
    simp only [Symbol.ref, hgrows.get? hnop]
    rfl
  | word name =>
    rw [Symbol.ref]
    cases hd : d.lookup name with
    | some r =>
      obtain ⟨e, he, _, hoffset⟩ := Dict.get?_of_lookup hd
      simp only [Option.getD_some, hgrows.get? he, hoffset]
      rfl
    | none =>
      cases hl : Text.Decimal.literal? name with
      | none => simp [Symbol.fault?, hd, hl] at hs
      | some n =>
        have hnew : d'.get? next = some (.literal n) :=
          hfresh _ (by simp only [Symbol.fresh?, hd, hl, Option.map_some])
        simp only [Option.getD_none, hnew]
        rfl

/-- The slots of a line are searched for a fault as its symbols are. -/
theorem findSome?_slotRefs (hnop : d.get? nop = some (.primitive "NOP" .nop))
    (hgrows : d.Extends d') (hmax : len < 2 ^ 63 - 1) :
    (symbols before : List Symbol) → (next ip : Nat) → ip + symbols.length = len →
      Symbol.faultFrom d before symbols = none →
      (∀ i, d'.get? (next + i) = (Symbol.freshEntries d symbols)[i]?) →
      ((Symbol.slotRefs d next symbols).zipIdx ip).findSome?
          (fun (r, ip) => Jump.slotFault? d' len ip r) =
        (symbols.zipIdx ip).findSome? fun (s, t) => s.outside? len t
  | [], _, _, _, _, _, _ => rfl
  | s :: rest, before, next, ip, hlen, hf, hfresh => by
    rw [List.length_cons] at hlen
    rw [Symbol.faultFrom, Option.or_eq_none_iff] at hf
    have ih := findSome?_slotRefs hnop hgrows hmax rest (before ++ [s]) _ (ip + 1) (by omega)
      hf.2 (get?_behind_fresh? hfresh)
    have hslot : Jump.slotFault? d' len ip (s.ref d next) = s.outside? len ip :=
      slotFault?_ref hnop hgrows hf.1 (fun e => get?_of_fresh? hfresh) (by omega) hmax
    rw [Symbol.slotRefs, List.zipIdx_cons, List.zipIdx_cons, List.findSome?_cons,
      List.findSome?_cons]
    dsimp only
    rw [hslot, ih]

/-! ## The answer of the assembler -/

/-- **Assembling the symbols of a line** fails with what there is to blame, and only then. -/
theorem assemble_eq_blame (hnop : d.get? nop = some (.primitive "NOP" .nop))
    {symbols : List Symbol} (hmax : symbols.length < 2 ^ 63 - 1) :
    (assemble d symbols).1.map (fun _ => ()) = Error.raised (blame? d symbols) := by
  have himage := assemble_image d symbols
  unfold blame?
  rw [firstBad?_eq_faultFrom]
  cases hf : Symbol.faultFrom d [] symbols with
  | some e =>
    rw [hf] at himage
    obtain ⟨d', hd', _⟩ := himage
    rw [hd']
    rfl
  | none =>
    rw [hf] at himage
    obtain ⟨b, os, hb, hstands, hcode, hnew⟩ := himage
    rw [hb]
    have hsize := hstands.size
    have hlevel := hstands.level
    have hopen : b.flow.items.isEmpty ↔ ¬ symbols.count .endMark < symbols.count .ifMark := by
      rw [hstands.tracks.flow, List.isEmpty_iff, List.map_eq_nil_iff, ← List.length_eq_zero_iff]
      omega
    by_cases hcount : symbols.count .endMark < symbols.count .ifMark
    · simp only [Assembly.finish, hsize, if_pos hcount]
      rw [if_neg (fun hc => hopen.1 hc hcount)]
      rfl
    · have hslots : Jump.firstFault b.dict b.code = firstOutside? symbols := by
        unfold Jump.firstFault
        rw [hcode, hsize]
        exact findSome?_slotRefs hnop hstands.tracks.grows.toExtends hmax symbols [] d.size 0
          (Nat.zero_add _) hf hnew
      simp only [Assembly.finish, if_neg hcount, if_pos (hopen.2 hcount)]
      rw [Jump.check_eq_raised _ (by omega), hslots]
      cases firstOutside? symbols <;> rfl

/-- **Symbols without blame are assembled into their image.** -/
theorem exists_image_of_blame? (hnop : d.get? nop = some (.primitive "NOP" .nop))
    {symbols : List Symbol} (hmax : symbols.length < 2 ^ 63 - 1)
    (hblame : blame? d symbols = none) :
    ∃ w d', assemble d symbols = (.ok w, d') ∧
      w.body.toList = Symbol.slotRefs d d.size symbols ∧
      (∀ i, d'.get? (d.size + i) = (Symbol.freshEntries d symbols)[i]?) ∧
      d.ExtendsUnnamed d' := by
  have himage := assemble_image d symbols
  have hassemble := assemble_eq_blame hnop hmax
  have hf : Symbol.faultFrom d [] symbols = none := by
    rw [← firstBad?_eq_faultFrom]
    unfold blame? at hblame
    split at hblame
    · simp at hblame
    · next hbad => exact hbad
  rw [hf] at himage
  obtain ⟨b, os, hb, hstands, hcode, hnew⟩ := himage
  rw [hb, hblame] at hassemble
  cases hfinish : b.finish with
  | error e =>
    rw [hfinish] at hassemble
    cases hassemble
  | ok w =>
    refine ⟨w, b.dict, by rw [hb, hfinish], ?_, hnew, hstands.tracks.grows⟩
    rw [(Assembly.finish_eq_ok hfinish).1]
    exact hcode

namespace Machine

variable {allowed : Command → Prop} {m : Machine}

/-- What compiling a line comes to, told by its symbols. -/
theorem compile_eq (m : Machine) (line : String) :
    m.compile line =
      match firstTooLong? m.limits.nameLen line with
      | some r => (.error (.tokenTooLong (r.pos + m.limits.nameLen)), m)
      | none =>
        if lineSymbols line = [] then (.ok none, m)
        else ((assemble m.dict (lineSymbols line)).1.map some,
          { m with dict := (assemble m.dict (lineSymbols line)).2 }) := by
  unfold compile
  rw [tokenize_eq]
  cases firstTooLong? m.limits.nameLen line with
  | some r => rfl
  | none =>
    have hsymbols : lineSymbols line =
        ((lineRuns line).map fun r => (⟨String.ofList r.items, r.pos⟩ : Token)).map
          Token.symbol := by
      simp [lineSymbols, lineTexts, Token.symbol]
    rw [hsymbols]
    cases lineRuns line with
    | nil => rfl
    | cons r rs => rfl

/-- A machine that still has the NOP of the boot answers with the verdict. -/
theorem compile_eq_verdict (hnop : m.dict.get? nop = some (.primitive "NOP" .nop))
    {line : String} (hline : line.utf8ByteSize < 2 ^ 63) :
    (m.compile line).1.map Option.isSome = verdict m.limits.nameLen m.dict line := by
  have hmax : (lineSymbols line).length < 2 ^ 63 - 1 := by
    have := two_mul_length_lineRuns_le line
    rw [length_lineSymbols]
    omega
  rw [compile_eq, verdict]
  cases firstTooLong? m.limits.nameLen line with
  | some r => rfl
  | none =>
    by_cases hblank : lineSymbols line = []
    · simp only [if_pos hblank]
      rfl
    · simp only [if_neg hblank]
      rw [← assemble_eq_blame hnop hmax]
      cases (assemble m.dict (lineSymbols line)).1 <;> rfl

/-- What a line that does not compile fails with. -/
theorem blame?_of_compile (hnop : m.dict.get? nop = some (.primitive "NOP" .nop))
    {line : String} (hline : line.utf8ByteSize < 2 ^ 63) {e : Error}
    (h : (m.compile line).1 = .error e) :
    (∃ r, firstTooLong? m.limits.nameLen line = some r ∧
        e = .tokenTooLong (r.pos + m.limits.nameLen)) ∨
      (firstTooLong? m.limits.nameLen line = none ∧ blame? m.dict (lineSymbols line) = some e) := by
  have hv := compile_eq_verdict hnop hline
  rw [h, verdict] at hv
  split at hv
  · next r hr =>
    cases hv
    exact .inl ⟨r, hr, rfl⟩
  · next hfit =>
    refine .inr ⟨hfit, ?_⟩
    split at hv
    · cases hv
    · cases hb : blame? m.dict (lineSymbols line) with
      | none =>
        rw [hb] at hv
        cases hv
      | some e' =>
        rw [hb] at hv
        cases hv
        rfl

/-- What a line that does not compile fails with always has a code. -/
theorem isSome_code_of_compile (hnop : m.dict.get? nop = some (.primitive "NOP" .nop))
    {line : String} (hline : line.utf8ByteSize < 2 ^ 63) {e : Error}
    (he : (m.compile line).1 = .error e) :
    e.code.isSome := by
  rcases blame?_of_compile hnop hline he with ⟨r, _, rfl⟩ | ⟨_, hblame⟩
  · rfl
  · rcases blame?_cases hblame with ⟨t, _, ⟨name, rfl⟩ | rfl⟩ | rfl | ⟨t, _, target, rfl, _⟩ <;>
      rfl

/-- **The assembler accepts its grammar and blames the right token.**  The bound on the size of a
line is that of every text in memory. -/
theorem compile_verdict (h : Reachable allowed m) {line : String}
    (hline : line.utf8ByteSize < 2 ^ 63) :
    (m.compile line).1.map Option.isSome = verdict m.limits.nameLen m.dict line :=
  compile_eq_verdict h.get?_nop hline

/-- A branch written by hand is counted in tokens, and blamed by them. -/
theorem compile_verdict_outside :
    "DUP IF BRANCH9 END".utf8ByteSize < 2 ^ 63 ∧
      ((boot {}).load.2.compile "DUP IF BRANCH9 END").1.map Option.isSome =
        .error (.jumpOutOfBounds 2 12) :=
  ⟨by decide, (compile_verdict (@Reachable.load (fun _ => True) trivial {}) (by decide)).trans rfl⟩

end Machine

end Threaded
