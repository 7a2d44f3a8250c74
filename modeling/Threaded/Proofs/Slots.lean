import Mathlib.Algebra.Ring.Int.Defs
import Threaded.Proofs.Concatenation
import Threaded.Proofs.Newest
import Threaded.Proofs.Safety

/-!
# A slot for every token

What a line is compiled into, token by token.  Each token has the slot of its own index.  END has
the NOP of the boot there, a name that is known has its newest entry, and every other token has an
entry that is registered for it (`Symbol.Fills`).  These new entries follow one another in the
ledger in the order of the tokens, and there is nothing else that a line adds (`Dict.Gained`), also
when it fails: then it has added what the tokens before the failure make.

The image of a line says the same with lists that are read from the front and with a recursion for
what closes a branch.  Here both are told by position.  The entry of a token stands as far behind
the old ones as there are tokens before it that register one (`get?_freshEntries`), and a branch is
closed by the first ELSE or END behind it on its own level, where IF goes one up and END one down
(`closer_eq_some_iff`).
-/

namespace Threaded

namespace Symbol

/-! ## Levels -/

/-- How a token changes the level of nesting. -/
def shift : Symbol → Int
  | .ifMark => 1
  | .endMark => -1
  | .elseMark | .branch _ | .zbranch _ | .word _ => 0

/-- The level of nesting before the token `t`. -/
def level (symbols : List Symbol) (t : Nat) : Int :=
  ((symbols.take t).map shift).sum

/-- The token `t` is an ELSE or an END. -/
def MarkAt (symbols : List Symbol) (t : Nat) : Prop :=
  symbols[t]? = some .elseMark ∨ symbols[t]? = some .endMark

/-- The token `c` closes the branch that the token `t` opens: it is the first ELSE or END behind
that on the same level. -/
structure Closes (symbols : List Symbol) (t c : Nat) : Prop where
  behind : t < c
  mark : MarkAt symbols c
  level : level symbols c = level symbols (t + 1)
  first : ∀ k, t < k → k < c → MarkAt symbols k →
    Symbol.level symbols k ≠ Symbol.level symbols (t + 1)

/-- No mark is open at the first symbol. -/
@[simp] theorem level_zero (symbols : List Symbol) : level symbols 0 = 0 := rfl

/-- The level of a symbol behind another one is shifted by that one. -/
@[simp] theorem level_cons (s : Symbol) (rest : List Symbol) (t : Nat) :
    level (s :: rest) (t + 1) = s.shift + level rest t := by
  simp [level]

/-- Levels are counted from any token on. -/
theorem level_add (symbols : List Symbol) (t k : Nat) :
    level symbols (t + k) = level symbols t + level (symbols.drop t) k := by
  unfold level
  rw [List.take_add, List.map_append, List.sum_append]

/-- A mark behind the first symbols is a mark. -/
theorem markAt_drop (symbols : List Symbol) (t k : Nat) :
    MarkAt (symbols.drop t) k ↔ MarkAt symbols (t + k) := by
  simp only [MarkAt, List.getElem?_drop]

/-- The `n`-th of the tokens to come is the first ELSE or END before which they have gone back `i`
levels. -/
structure ClosesFrom (i : Int) (rest : List Symbol) (n : Nat) : Prop where
  mark : MarkAt rest n
  level : i + level rest n = 0
  first : ∀ k < n, MarkAt rest k → i + Symbol.level rest k ≠ 0

variable {i : Int} {s : Symbol} {rest : List Symbol} {n : Nat}

/-- A token that does not close the branch changes the level for those behind it. -/
theorem closesFrom_cons_iff (hs : MarkAt (s :: rest) 0 → i ≠ 0) :
    ClosesFrom i (s :: rest) n ↔ ∃ k, n = k + 1 ∧ ClosesFrom (i + s.shift) rest k := by
  constructor
  · rintro ⟨hmark, hlevel, hfirst⟩
    rcases n with _ | k
    · exact absurd (by simpa using hlevel) (hs hmark)
    · refine ⟨k, rfl, hmark, ?_, ?_⟩
      · rw [Int.add_assoc, ← level_cons]
        exact hlevel
      · intro j hj hmark'
        have hne := hfirst (j + 1) (by omega) hmark'
        rwa [level_cons, ← Int.add_assoc] at hne
  · rintro ⟨k, rfl, hmark, hlevel, hfirst⟩
    refine ⟨hmark, ?_, ?_⟩
    · rw [level_cons, ← Int.add_assoc]
      exact hlevel
    · intro j hj hmark'
      rcases j with _ | j
      · simpa using hs hmark'
      · rw [level_cons, ← Int.add_assoc]
        exact hfirst j (by omega) hmark'

/-- A token that closes the branch is the one that does. -/
theorem closesFrom_zero_iff (hs : MarkAt (s :: rest) 0) :
    ClosesFrom 0 (s :: rest) n ↔ n = 0 := by
  constructor
  · rintro ⟨_, _, hfirst⟩
    rcases n with _ | k
    · rfl
    · exact absurd rfl (hfirst 0 (Nat.succ_pos k) hs)
  · rintro rfl
    exact ⟨hs, rfl, nofun⟩

/-- **What the assembler finds by its recursion** is told by levels. -/
theorem closer_eq_some_iff : (rest : List Symbol) → (depth n : Nat) →
    (closer depth rest = some n ↔ ClosesFrom depth rest n)
  | [], depth, n => by
    constructor
    · intro h
      cases h
    · rintro ⟨hmark | hmark, _⟩ <;> cases hmark
  | s :: rest, depth, n => by
    have hstep : ∀ depth' : Nat, (MarkAt (s :: rest) 0 → (depth : Int) ≠ 0) →
        (depth : Int) + s.shift = depth' →
        ((closer depth' rest).map (· + 1) = some n ↔ ClosesFrom depth (s :: rest) n) := by
      intro depth' hs hshift
      rw [closesFrom_cons_iff hs, hshift, Option.map_eq_some_iff]
      constructor
      · rintro ⟨k, hk, rfl⟩
        exact ⟨k, rfl, (closer_eq_some_iff rest depth' k).1 hk⟩
      · rintro ⟨k, rfl, hk⟩
        exact ⟨k, (closer_eq_some_iff rest depth' k).2 hk, rfl⟩
    cases s with
    | ifMark => exact hstep (depth + 1) (by simp [MarkAt]) (by simp [shift])
    | elseMark =>
      rcases depth with _ | depth
      · have hclose : ClosesFrom 0 (.elseMark :: rest) n ↔ n = 0 :=
          closesFrom_zero_iff (.inl rfl)
        simpa [closer, eq_comm] using hclose.symm
      · exact hstep (depth + 1) (fun _ => by omega) (by simp [shift])
    | endMark =>
      rcases depth with _ | depth
      · have hclose : ClosesFrom 0 (.endMark :: rest) n ↔ n = 0 :=
          closesFrom_zero_iff (.inr rfl)
        simpa [closer, eq_comm] using hclose.symm
      · exact hstep depth (fun _ => by omega) (by simp [shift])
    | branch | zbranch | word => exact hstep depth (by simp [MarkAt]) (by simp [shift])

/-- **A branch of a line is closed** by the first ELSE or END behind it on its level. -/
theorem closes_iff (symbols : List Symbol) (t c : Nat) :
    Closes symbols t c ↔ ∃ n, c = t + 1 + n ∧ closer 0 (symbols.drop (t + 1)) = some n := by
  have hlevel : ∀ k, level symbols (t + 1 + k) = level symbols (t + 1) ↔
      ((0 : Nat) : Int) + level (symbols.drop (t + 1)) k = 0 := by
    intro k
    rw [level_add]
    omega
  constructor
  · rintro ⟨hbehind, hmark, hsame, hfirst⟩
    obtain ⟨n, rfl⟩ := Nat.exists_eq_add_of_le hbehind
    refine ⟨n, rfl, (closer_eq_some_iff _ _ _).2 ⟨?_, (hlevel n).1 hsame, ?_⟩⟩
    · exact (markAt_drop symbols (t + 1) n).2 hmark
    · intro k hk hmark' hzero
      exact hfirst (t + 1 + k) (by omega) (by omega) ((markAt_drop _ _ _).1 hmark')
        ((hlevel k).2 hzero)
  · rintro ⟨n, rfl, hn⟩
    obtain ⟨hmark, hzero, hfirst⟩ := (closer_eq_some_iff _ _ _).1 hn
    refine ⟨by omega, (markAt_drop _ _ _).1 hmark, (hlevel n).2 hzero, ?_⟩
    intro k hk hkn hmark' hsame
    obtain ⟨j, rfl⟩ := Nat.exists_eq_add_of_le hk
    exact hfirst j (by omega) ((markAt_drop _ _ _).2 hmark') ((hlevel j).1 hsame)

/-! ## Entries -/

/-- Whether a token has an entry registered for it. -/
def registers (d : Dict) : Symbol → Bool
  | .endMark => false
  | .word name => (d.lookup name).isNone
  | .ifMark | .elseMark | .branch _ | .zbranch _ => true

/-- How many of the tokens before `t` have one. -/
def newBefore (d : Dict) (symbols : List Symbol) (t : Nat) : Nat :=
  (symbols.take t).countP (registers d)

/-- The entry that is registered for the token `t` of a line. -/
inductive Enters (d : Dict) (symbols : List Symbol) (t : Nat) : Symbol → Entry → Prop
  | branch (offset : Cell) : Enters d symbols t (.branch offset) (.branch offset)
  | zbranch (offset : Cell) : Enters d symbols t (.zbranch offset) (.zbranch offset)
  | closedIf {c : Nat} {offset : Cell} (h : Closes symbols t c)
    (hoffset : offset.toInt = (c : Int) - t) : Enters d symbols t .ifMark (.zbranch offset)
  | openIf (h : ∀ c, ¬ Closes symbols t c) : Enters d symbols t .ifMark (.zbranch 0)
  | closedElse {c : Nat} {offset : Cell} (h : Closes symbols t c)
    (hoffset : offset.toInt = (c : Int) - t) : Enters d symbols t .elseMark (.branch offset)
  | openElse (h : ∀ c, ¬ Closes symbols t c) : Enters d symbols t .elseMark (.branch 0)
  | number {name : String} {value : Cell} (h : ∀ q, d.nameOf? q ≠ some name)
    (hvalue : Text.Decimal.literal? name = some value) :
    Enters d symbols t (.word name) (.literal value)

variable {d d' : Dict} {symbols : List Symbol} {t : Nat} {e : Entry}

/-- The offset that the assembler writes is the distance to what closes the branch. -/
theorem arm_cases (symbols : List Symbol) (t : Nat) (hmax : symbols.length < 2 ^ 63) :
    (∃ c, Closes symbols t c ∧ (arm (closer 0 (symbols.drop (t + 1)))).toInt = (c : Int) - t) ∨
      (∀ c, ¬ Closes symbols t c) ∧ arm (closer 0 (symbols.drop (t + 1))) = 0 := by
  cases hn : closer 0 (symbols.drop (t + 1)) with
  | none =>
    refine .inr ⟨fun c hc => ?_, rfl⟩
    obtain ⟨n, _, hsome⟩ := (closes_iff symbols t c).1 hc
    rw [hn] at hsome
    cases hsome
  | some n =>
    have hlt := closer_lt hn
    rw [List.length_drop] at hlt
    refine .inl ⟨t + 1 + n, (closes_iff symbols t _).2 ⟨n, rfl, hn⟩, ?_⟩
    have hoffset : (arm (some n)).toInt = (n + 1 : Nat) := Cell.toInt_ofCount (by omega)
    omega

/-- The entry of the image is that of the token. -/
theorem enters_of_fresh? (hd : d.Chronicled) (hmax : symbols.length < 2 ^ 63) {s : Symbol}
    (he : s.fresh? d (symbols.drop (t + 1)) = some e) : Enters d symbols t s e := by
  have harm := arm_cases symbols t hmax
  cases s with
  | branch offset =>
    obtain rfl := Option.some.inj he
    exact .branch offset
  | zbranch offset =>
    obtain rfl := Option.some.inj he
    exact .zbranch offset
  | ifMark =>
    obtain rfl := Option.some.inj he
    rcases harm with ⟨c, hc, hoffset⟩ | ⟨hopen, hzero⟩
    · exact .closedIf hc hoffset
    · rw [hzero]
      exact .openIf hopen
  | elseMark =>
    obtain rfl := Option.some.inj he
    rcases harm with ⟨c, hc, hoffset⟩ | ⟨hopen, hzero⟩
    · exact .closedElse hc hoffset
    · rw [hzero]
      exact .openElse hopen
  | endMark => cases he
  | word name =>
    simp only [fresh?] at he
    split at he
    · cases he
    · next hunknown =>
      obtain ⟨value, hvalue, rfl⟩ := Option.map_eq_some_iff.1 he
      exact .number (hd.lookup_eq_none_iff.1 hunknown) hvalue

/-- A token that is not at fault registers something exactly if it has an entry in the image. -/
theorem isSome_fresh? {s : Symbol} {before : List Symbol} (hs : s.fault? d before = none)
    (rest : List Symbol) : (s.fresh? d rest).isSome = s.registers d := by
  cases s with
  | word name =>
    cases hd : d.lookup name with
    | some r => simp [fresh?, registers, hd]
    | none =>
      cases hl : Text.Decimal.literal? name with
      | some n => simp [fresh?, registers, hd, hl]
      | none => simp [fault?, hd, hl] at hs
  | _ => rfl

/-- The first token counts for those behind it if it registers something. -/
theorem newBefore_cons {s : Symbol} {before rest : List Symbol} (hs : s.fault? d before = none)
    (t : Nat) :
    newBefore d (s :: rest) (t + 1) =
      (s.fresh? d rest).toList.length + newBefore d rest t := by
  unfold newBefore
  rw [List.take_succ_cons, List.countP_cons, ← isSome_fresh? hs rest]
  cases s.fresh? d rest <;> simp [Nat.add_comm]

/-- A line in which nothing is at fault registers as many entries as it has such tokens. -/
theorem length_freshEntries : (symbols before : List Symbol) →
    faultFrom d before symbols = none →
      (freshEntries d symbols).length = symbols.countP (registers d)
  | [], _, _ => rfl
  | s :: rest, before, hf => by
    rw [faultFrom, Option.or_eq_none_iff] at hf
    have ih := length_freshEntries rest (before ++ [s]) hf.2
    rw [freshEntries, List.length_append, ih, List.countP_cons, ← isSome_fresh? hf.1 rest]
    cases s.fresh? d rest <;> simp [Nat.add_comm]

/-- **The entry of a token** stands behind those of the tokens before it. -/
theorem get?_freshEntries : (symbols before : List Symbol) → (t : Nat) → {s : Symbol} →
    faultFrom d before symbols = none → symbols[t]? = some s →
      s.fresh? d (symbols.drop (t + 1)) = some e →
      (freshEntries d symbols)[newBefore d symbols t]? = some e
  | s :: rest, _, 0, _, hf, hs, he => by
    obtain rfl := Option.some.inj hs
    have he : s.fresh? d rest = some e := he
    simp [newBefore, freshEntries, he]
  | s :: rest, before, t + 1, s', hf, hs, he => by
    rw [faultFrom, Option.or_eq_none_iff] at hf
    have ih := get?_freshEntries rest (before ++ [s]) t hf.2 hs he
    rw [newBefore_cons hf.1, freshEntries, List.getElem?_append_right (Nat.le_add_right _ _),
      Nat.add_sub_cancel_left]
    exact ih

/-- **The slot of a token** holds what its image says, where the next new reference is told by the
tokens before it. -/
theorem get?_slotRefs : (symbols before : List Symbol) → (next t : Nat) → {s : Symbol} →
    faultFrom d before symbols = none → symbols[t]? = some s →
      (slotRefs d next symbols)[t]? = some (s.ref d (next + newBefore d symbols t))
  | s :: rest, _, next, 0, _, hf, hs => by
    obtain rfl := Option.some.inj hs
    simp [newBefore, slotRefs]
  | s :: rest, before, next, t + 1, s', hf, hs => by
    rw [faultFrom, Option.or_eq_none_iff] at hf
    have ih := get?_slotRefs rest (before ++ [s]) (next + (s.fresh? d rest).toList.length) t
      hf.2 hs
    rw [slotRefs, List.getElem?_cons_succ, ih, newBefore_cons hf.1, Nat.add_assoc]

/-- The slot of the token `t` of a line holds the reference `r`: the NOP of the boot for an END, the
newest entry of a name that is known, and the next new entry for any other token. -/
inductive Fills (d d' : Dict) (symbols : List Symbol) (t : Nat) (r : Ref) : Symbol → Prop
  | mark (hr : r = nop) (hget : d'.get? nop = some (.primitive "NOP" .nop)) :
    Fills d d' symbols t r .endMark
  | known {name : String} (hname : d.nameOf? r = some name)
    (hnewest : ∀ q, d.nameOf? q = some name → q ≤ r) : Fills d d' symbols t r (.word name)
  | new {s : Symbol} {e : Entry} (hs : s.registers d = true)
    (hr : r = d.size + newBefore d symbols t) (he : Enters d symbols t s e)
    (hget : d'.get? r = some e) : Fills d d' symbols t r s

end Symbol

/-! ## What a line adds -/

/-- What the dictionary has gained by these tokens: an entry for each token that registers one, in
order behind the old ones, and nothing else. -/
structure Dict.Gained (d d' : Dict) (symbols : List Symbol) : Prop where
  kept : d.ExtendsUnnamed d'
  size : d'.size = d.size + symbols.countP (Symbol.registers d)
  entry : ∀ t s, symbols[t]? = some s → s.registers d = true →
    ∃ e, Symbol.Enters d symbols t s e ∧ d'.get? (d.size + Symbol.newBefore d symbols t) = some e

section Gained

variable {d d' : Dict} {symbols : List Symbol} {e : Entry}

/-- A token without fault that registers something has an entry in the image. -/
theorem Symbol.exists_fresh? {s : Symbol} {before : List Symbol} (rest : List Symbol)
    (hs : s.fault? d before = none) (hnew : s.registers d = true) :
    ∃ e, s.fresh? d rest = some e :=
  Option.isSome_iff_exists.1 ((Symbol.isSome_fresh? hs rest).trans hnew)

/-- In a line without faults no token is at fault. -/
theorem Symbol.fault?_of_faultFrom {t : Nat} {s : Symbol}
    (hf : Symbol.faultFrom d [] symbols = none) (hs : symbols[t]? = some s) :
    s.fault? d (symbols.take t) = none := by
  obtain ⟨ht, rfl⟩ := List.getElem?_eq_some_iff.1 hs
  have hsplit : symbols = symbols.take t ++ symbols[t] :: symbols.drop (t + 1) := by simp
  rw [hsplit, Symbol.faultFrom_append, Option.or_eq_none_iff, List.nil_append,
    Symbol.faultFrom, Option.or_eq_none_iff] at hf
  exact hf.2.1

/-- **The image of a line without faults** is what the dictionary gains. -/
theorem Dict.Gained.of_image (hd : d.Chronicled) (hmax : symbols.length < 2 ^ 63)
    (hf : Symbol.faultFrom d [] symbols = none) (hgrows : d.ExtendsUnnamed d')
    (hnew : ∀ i, d'.get? (d.size + i) = (Symbol.freshEntries d symbols)[i]?) :
    d.Gained d' symbols where
  kept := hgrows
  size := by
    rw [hgrows.eq_append hnew, Dict.size_append, Symbol.length_freshEntries symbols [] hf]
  entry t s hs hregisters := by
    have hfault := Symbol.fault?_of_faultFrom hf hs
    obtain ⟨e, he⟩ := Symbol.exists_fresh? (symbols.drop (t + 1)) hfault hregisters
    refine ⟨e, Symbol.enters_of_fresh? hd hmax he, ?_⟩
    rw [hnew]
    exact Symbol.get?_freshEntries symbols [] t hf hs he

end Gained

/-! ## Where a line fails -/

/-- How many tokens of a line of `count` tokens have been assembled when it fails: those before the
token that is blamed as it is met, none if the line is not assembled at all, and otherwise all. -/
def Error.assembled (count : Nat) : Error → Nat
  | tokenTooLong _ => 0
  | unresolvedSymbol t _ | unmatchedElseOrEnd t => t
  | _ => count

/-- A line with faults has a first one, and there is none before it. -/
theorem Symbol.exists_first_fault {d : Dict} {e : Error} : (symbols before : List Symbol) →
    faultFrom d before symbols = some e →
      ∃ t s, symbols[t]? = some s ∧ faultFrom d before (symbols.take t) = none ∧
        s.fault? d (before ++ symbols.take t) = some e
  | [], _, h => nomatch h
  | s :: rest, before, h => by
    rw [faultFrom, Option.or_eq_some_iff] at h
    rcases h with hs | ⟨hs, hrest⟩
    · exact ⟨0, s, rfl, rfl, by simpa using hs⟩
    · obtain ⟨t, s', hs', hbefore, hfault⟩ := exists_first_fault rest (before ++ [s]) hrest
      refine ⟨t + 1, s', hs', ?_, ?_⟩
      · rw [List.take_succ_cons, faultFrom, hs, hbefore]
        rfl
      · rwa [List.append_assoc] at hfault

namespace Assembly

/-- An assembly stops at the first token that fails. -/
theorem addAll_of_add_eq_error {b : Assembly} {s : Symbol} {e : Error} (rest : List Symbol)
    (hs : b.add s = .error e) : (before : List Symbol) → (a : Assembly) →
      a.addAll before = (.ok (), b) → a.addAll (before ++ s :: rest) = (.error e, b)
  | [], a, h => by
    obtain rfl : a = b := congrArg Prod.snd h
    rw [List.nil_append, addAll, hs]
  | s' :: before, a, h => by
    rw [addAll] at h
    rw [List.cons_append, addAll]
    split at h
    · next c _ => exact addAll_of_add_eq_error rest hs before c h
    · cases h

end Assembly

/-- **A line with a fault** has been assembled up to its first. -/
theorem assemble_of_fault {d : Dict} {symbols : List Symbol} {e : Error}
    (h : Symbol.faultFrom d [] symbols = some e) :
    ∃ t d', assemble d symbols = (.error e, d') ∧ e.assembled symbols.length = t ∧
      Symbol.faultFrom d [] (symbols.take t) = none ∧ d.ExtendsUnnamed d' ∧
        ∀ i, d'.get? (d.size + i) = (Symbol.freshEntries d (symbols.take t))[i]? := by
  obtain ⟨t, s, hs, hbefore, hfault⟩ := Symbol.exists_first_fault symbols [] h
  rw [List.nil_append] at hfault
  obtain ⟨ht, rfl⟩ := List.getElem?_eq_some_iff.1 hs
  have hsplit : symbols = symbols.take t ++ symbols[t] :: symbols.drop (t + 1) := by simp
  have hlen : (symbols.take t).length = t := List.length_take_of_le (Nat.le_of_lt ht)
  have himage := Assembly.addAll_image (symbols.take t) [] [] _ (.start d symbols.length)
    (by rw [hlen]; exact Nat.le_of_lt ht)
  rw [hbefore] at himage
  obtain ⟨b, os, hb, hstands, hyields⟩ := himage
  have hadd := Assembly.add_of_fault hstands hfault
  have hstops := Assembly.addAll_of_add_eq_error (symbols.drop (t + 1)) hadd _ _ hb
  rw [← hsplit] at hstops
  refine ⟨t, b.dict, ?_, ?_, hbefore, hstands.tracks.grows, hyields.fresh⟩
  · unfold assemble
    rw [hstops]
  · rcases Symbol.eq_of_fault?_eq_some hfault with ⟨name, rfl⟩ | rfl <;> exact hlen

/-- **What a line adds**, whether it fails or not. -/
theorem gained_of_assemble {d : Dict} (hd : d.Chronicled) {symbols : List Symbol}
    (hmax : symbols.length < 2 ^ 63) :
    match (assemble d symbols).1 with
    | .ok _ => d.Gained (assemble d symbols).2 symbols
    | .error e => d.Gained (assemble d symbols).2 (symbols.take (e.assembled symbols.length)) := by
  cases hf : Symbol.faultFrom d [] symbols with
  | some e =>
    obtain ⟨t, d', hassemble, hstopped, hbefore, hgrows, hnew⟩ := assemble_of_fault hf
    have hlen : (symbols.take t).length ≤ symbols.length := List.length_take_le' t symbols
    rw [hassemble]
    dsimp only
    rw [hstopped]
    exact .of_image hd (by omega) hbefore hgrows hnew
  | none =>
    have himage := assemble_image d symbols
    rw [hf] at himage
    obtain ⟨a, os, ha, hstands, _, hnew⟩ := himage
    have hgained : d.Gained a.dict symbols :=
      .of_image hd hmax hf hstands.tracks.grows hnew
    rw [ha]
    dsimp only
    split
    · exact hgained
    -- the tokens are all assembled, so the end of the line or a slot of its word is blamed
    · next e he =>
      have hall : e.assembled symbols.length = symbols.length := by
        rcases Assembly.finish_eq_error he with rfl | hslot
        · rw [hstands.size]
          rfl
        · cases e <;> first | rfl | exact absurd trivial hslot
      rwa [hall, List.take_length]

/-! ## The theorem -/

/-- What a line is compiled into, token by token. -/
structure Assembled (d d' : Dict) (symbols : List Symbol) (body : Array Ref) : Prop where
  size : body.size = symbols.length
  slot : ∀ t (s : Symbol), symbols[t]? = some s → ∃ r, body[t]? = some r ∧ s.Fills d d' symbols t r
  closed : ∀ t, symbols[t]? = some .ifMark ∨ symbols[t]? = some .elseMark →
    ∃ c, Symbol.Closes symbols t c
  gained : d.Gained d' symbols

/-- The image of a line without faults: the slots of its word, and the dictionary behind it. -/
structure Imaged (d : Dict) (symbols : List Symbol) (body : Array Ref) (d' : Dict) : Prop where
  faultless : Symbol.faultFrom d [] symbols = none
  slots : body.toList = Symbol.slotRefs d d.size symbols
  kept : d.ExtendsUnnamed d'
  fresh : ∀ i, d'.get? (d.size + i) = (Symbol.freshEntries d symbols)[i]?

namespace Imaged

variable {d d' : Dict} {symbols : List Symbol} {body : Array Ref} {t : Nat} {s : Symbol} {e : Entry}

/-- The slot of a token. -/
theorem getElem?_body (h : Imaged d symbols body d') (hs : symbols[t]? = some s) :
    body[t]? = some (s.ref d (d.size + Symbol.newBefore d symbols t)) := by
  rw [← Array.getElem?_toList, h.slots]
  exact Symbol.get?_slotRefs symbols [] d.size t h.faultless hs

/-- The entry that is registered for a token. -/
theorem get?_fresh (h : Imaged d symbols body d') (hs : symbols[t]? = some s)
    (he : s.fresh? d (symbols.drop (t + 1)) = some e) :
    d'.get? (d.size + Symbol.newBefore d symbols t) = some e := by
  rw [h.fresh]
  exact Symbol.get?_freshEntries symbols [] t h.faultless hs he

/-- A word has a slot for every symbol. -/
theorem size_body (h : Imaged d symbols body d') : body.size = symbols.length := by
  rw [← Array.length_toList, h.slots, Symbol.length_slotRefs]

end Imaged

/-- Tokens without a fault are assembled into their image, and without an IF no branch is open. -/
theorem imaged_of_faultFrom {d : Dict} {symbols : List Symbol}
    (hf : Symbol.faultFrom d [] symbols = none) :
    ∃ a : Assembly, assemble d symbols = (a.finish, a.dict) ∧ Imaged d symbols a.code a.dict ∧
      (.ifMark ∉ symbols → a.flow.items = []) := by
  have himage := assemble_image d symbols
  rw [hf] at himage
  obtain ⟨a, os, ha, hstands, hslots, hfresh⟩ := himage
  refine ⟨a, ha, ⟨hf, hslots, hstands.tracks.grows, hfresh⟩, fun hif => ?_⟩
  have hlevel := hstands.level
  rw [List.count_eq_zero.2 hif] at hlevel
  have hos : os = [] := List.eq_nil_of_length_eq_zero (by omega)
  rw [hstands.tracks.flow, hos]
  rfl

/-- Tokens that are assembled become their image. -/
theorem imaged_of_assemble {d : Dict} {symbols : List Symbol} {w : Word}
    (h : (assemble d symbols).1 = .ok w) : Imaged d symbols w.body (assemble d symbols).2 := by
  cases hf : Symbol.faultFrom d [] symbols with
  | some e =>
    have himage := assemble_image d symbols
    rw [hf] at himage
    obtain ⟨d', hd', _⟩ := himage
    rw [hd'] at h
    cases h
  | none =>
    obtain ⟨a, ha, himaged, _⟩ := imaged_of_faultFrom hf
    rw [ha] at h ⊢
    rw [(Assembly.finish_eq_ok h).1]
    exact himaged

section Assembled

variable {d d' : Dict} {symbols : List Symbol}

/-- **The slot of a token**, if nothing is at fault. -/
theorem Symbol.fills_ref (hd : d.Chronicled) (hnop : d.get? nop = some (.primitive "NOP" .nop))
    (hgained : d.Gained d' symbols) {t : Nat} {s : Symbol} (hs : symbols[t]? = some s) :
    s.Fills d d' symbols t (s.ref d (d.size + newBefore d symbols t)) := by
  have hnew : s.registers d = true → s.ref d (d.size + newBefore d symbols t) =
      d.size + newBefore d symbols t → s.Fills d d' symbols t
        (s.ref d (d.size + newBefore d symbols t)) := by
    intro hregisters href
    obtain ⟨e, he, hget⟩ := hgained.entry t s hs hregisters
    rw [href]
    exact .new hregisters rfl he hget
  cases s with
  | endMark => exact .mark rfl (hgained.kept.toExtends.get? hnop)
  | branch | zbranch | ifMark | elseMark => exact hnew rfl rfl
  | word name =>
    cases hl : d.lookup name with
    | some r =>
      obtain ⟨hname, hnewest⟩ := hd.newest_of_lookup hl
      have href : (Symbol.word name).ref d (d.size + newBefore d symbols t) = r := by
        simp [ref, hl]
      rw [href]
      exact .known hname hnewest
    | none => exact hnew (by simp [registers, hl]) (by simp [ref, hl])

/-- A line that is not to be blamed closes its branches. -/
theorem Symbol.exists_closes (hblame : blame? d symbols = none) {t : Nat}
    (ht : symbols[t]? = some .ifMark ∨ symbols[t]? = some .elseMark) :
    ∃ c, Closes symbols t c := by
  obtain ⟨s, hs, hopen⟩ : ∃ s, symbols[t]? = some s ∧ (s = .ifMark ∨ s = .elseMark) := by
    rcases ht with ht | ht
    · exact ⟨_, ht, .inl rfl⟩
    · exact ⟨_, ht, .inr rfl⟩
  have hf := (blame?_eq_none_iff.1 hblame).1
  have hfault := fault?_of_faultFrom hf hs
  obtain ⟨hlt, rfl⟩ := List.getElem?_eq_some_iff.1 hs
  have hsplit : symbols = symbols.take t ++ symbols[t] :: symbols.drop (t + 1) := by simp
  have hbefore : faultFrom d [] (symbols.take t) = none := by
    rw [hsplit, faultFrom_append, Option.or_eq_none_iff] at hf
    exact hf.1
  have hcount := count_le_of_faultFrom (symbols.take t) [] hbefore (Nat.le_refl _)
  have hlevel := count_eq_of_blame? hblame
  rw [hsplit] at hlevel
  obtain ⟨n, hn⟩ := exists_closer hfault hopen hcount hlevel
  exact ⟨t + 1 + n, (closes_iff symbols t _).2 ⟨n, rfl, hn⟩⟩

end Assembled

namespace Machine

variable {allowed : Command → Prop} {m : Machine} {line : String}

/-- Tokens of a line that compiles are not too long. -/
theorem firstTooLong?_of_compile {w : Word} {m' : Machine}
    (hc : m.compile line = (.ok (some w), m')) : firstTooLong? m.limits.nameLen line = none := by
  rw [compile_eq] at hc
  split at hc
  · cases hc
  · assumption

/-- **A line that compiles** becomes its image, however long it is. -/
theorem imaged_of_compile {w : Word} {m' : Machine} (hc : m.compile line = (.ok (some w), m')) :
    Imaged m.dict (lineSymbols line) w.body m'.dict := by
  rw [compile_eq] at hc
  split at hc
  · cases hc
  · split at hc
    · cases hc
    · obtain ⟨hok, rfl⟩ := Prod.mk.inj hc
      have hassembled : (assemble m.dict (lineSymbols line)).1 = .ok w := by
        cases hassemble : (assemble m.dict (lineSymbols line)).1 with
        | error e =>
          rw [hassemble] at hok
          cases hok
        | ok w' =>
          rw [hassemble] at hok
          cases hok
          rfl
      exact imaged_of_assemble hassembled

/-- The symbols of a line are fewer than the bytes of a text can be. -/
theorem length_lineSymbols_lt (hline : line.utf8ByteSize < 2 ^ 63) :
    (lineSymbols line).length < 2 ^ 63 := by
  have := two_mul_length_lineRuns_le line
  rw [length_lineSymbols]
  omega

/-- **The word of a line**, token by token. -/
theorem assembled_of_compile (h : Reachable allowed m) (hline : line.utf8ByteSize < 2 ^ 63)
    {w : Word} {m' : Machine} (hc : m.compile line = (.ok (some w), m')) :
    Assembled m.dict m'.dict (lineSymbols line) w.body := by
  obtain ⟨hfit, hblame, _⟩ := blame?_eq_none_of_compile h.get?_nop hline hc
  obtain ⟨w', hc'⟩ := exists_compile_eq h.get?_nop hline hfit hblame
  have hm : m' = m.withDict (m.dict.append (Symbol.freshEntries m.dict (lineSymbols line))) :=
    congrArg Prod.snd (hc.symm.trans hc')
  have hgrows : m.dict.ExtendsUnnamed m'.dict := by
    have hcompile := m.compile_extendsUnnamed line
    rwa [hc] at hcompile
  have hf := (blame?_eq_none_iff.1 hblame).1
  have hgained : m.dict.Gained m'.dict (lineSymbols line) := by
    refine .of_image h.chronicled (length_lineSymbols_lt hline) hf hgrows ?_
    rw [hm]
    exact Dict.get?_append m.dict _
  have hslots : w.body.toList = Symbol.slotRefs m.dict m.dict.size (lineSymbols line) :=
    toList_body_of_compile hc
  refine ⟨?_, ?_, fun t => Symbol.exists_closes hblame, hgained⟩
  · rw [← Array.length_toList, hslots, Symbol.length_slotRefs]
  · intro t s hs
    refine ⟨_, ?_, Symbol.fills_ref h.chronicled h.get?_nop hgained hs⟩
    rw [← Array.getElem?_toList, hslots]
    exact Symbol.get?_slotRefs (lineSymbols line) [] m.dict.size t hf hs

/-- **What a line adds when it fails.** -/
theorem gained_of_compile (h : Reachable allowed m) (hline : line.utf8ByteSize < 2 ^ 63)
    {e : Error} {m' : Machine} (hc : m.compile line = (.error e, m')) :
    m.dict.Gained m'.dict
      ((lineSymbols line).take (e.assembled (lineSymbols line).length)) := by
  have hgained := gained_of_assemble h.chronicled (length_lineSymbols_lt hline)
  rw [compile_eq] at hc
  split at hc
  · cases hc
    exact .of_image h.chronicled (Nat.two_pow_pos 63) rfl (.refl _) fun i =>
      Dict.get?_eq_none_iff.2 (Nat.le_add_right _ _)
  · split at hc
    · cases hc
    · generalize assemble m.dict (lineSymbols line) = assembled at hc hgained
      obtain ⟨e' | w, d'⟩ := assembled
      · cases hc
        exact hgained
      · cases hc

/-- **A slot for every token, and nothing in the ledger but what they make.**  On a reachable
machine a line without tokens makes no word and changes nothing.  Any other line that compiles is
assembled into one slot for each of its tokens: an END into the NOP of the boot, a name that is
known into its newest entry, and any other token into an entry of its own, in order behind the old
ones.  The branch of an IF or ELSE goes to what closes it.  And a line that fails has added the
entries of the tokens before the one at which it fails, or of all if it fails at its end.  The bound
on the size of a line is that of every text in memory. -/
theorem compile_slots (h : Reachable allowed m) (hline : line.utf8ByteSize < 2 ^ 63) :
    match m.compile line with
    | (.ok none, m') => lineSymbols line = [] ∧ m' = m
    | (.ok (some w), m') => Assembled m.dict m'.dict (lineSymbols line) w.body
    | (.error e, m') =>
      m.dict.Gained m'.dict
        ((lineSymbols line).take (e.assembled (lineSymbols line).length)) := by
  rcases hc : m.compile line with ⟨e | (_ | w), m'⟩
  · exact gained_of_compile h hline hc
  · dsimp only
    rw [compile_eq] at hc
    split at hc
    · cases hc
    · split at hc
      · next hblank =>
        cases hc
        exact ⟨hblank, rfl⟩
      · generalize assemble m.dict (lineSymbols line) = assembled at hc
        obtain ⟨e' | w, d'⟩ := assembled <;> cases hc
  · exact assembled_of_compile h hline hc

/-- A line with a number twice, a branch written by hand, and the name NOP, which has been bound
again; and a line that fails behind an IF that is left open. -/
theorem compile_slots_shadowed :
    ∃ m m₁ m₂, Reachable (fun _ => True) m ∧
      m.compile "7 IF 7 ELSE BRANCH-1 END NOP" =
        (.ok (some { body := #[18, 19, 20, 21, 22, 0, 17] }), m₁) ∧
      Assembled m.dict m₁.dict (lineSymbols "7 IF 7 ELSE BRANCH-1 END NOP")
        #[18, 19, 20, 21, 22, 0, 17] ∧
      m.compile "1 IF 2 frob" = (.error (.unresolvedSymbol 3 "frob"), m₂) ∧
      m.dict.Gained m₂.dict ((lineSymbols "1 IF 2 frob").take 3) := by
  have hreach : Reachable (fun _ => True) ((boot {}).load.2.define "NOP" "DUP").2 :=
    .obey 0 (.load trivial {}) (c := .define "NOP" "DUP") trivial rfl
  have hcompiles : ((boot {}).load.2.define "NOP" "DUP").2.compile "7 IF 7 ELSE BRANCH-1 END NOP" =
      (.ok (some { body := #[18, 19, 20, 21, 22, 0, 17] }), _) := rfl
  have hfails : ((boot {}).load.2.define "NOP" "DUP").2.compile "1 IF 2 frob" =
      (.error (.unresolvedSymbol 3 "frob"), _) := rfl
  have hassembled := @compile_slots _ _ "7 IF 7 ELSE BRANCH-1 END NOP" hreach (by decide)
  have hgained := @compile_slots _ _ "1 IF 2 frob" hreach (by decide)
  rw [hcompiles] at hassembled
  rw [hfails] at hgained
  exact ⟨_, _, _, hreach, hcompiles, hassembled, hfails, hgained⟩

end Machine

end Threaded
