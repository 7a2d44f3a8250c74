import Threaded.Proofs.Block
import Threaded.Proofs.Soundness

/-!
# Conditionals keep their meaning

A block that is compiled and run does what it means.  Where the word of the block stands is a
matter of slots and offsets; what it means (`Block.behaviour`) knows neither, and the two agree on
every result, every machine that is left and also on not ending at all.

`Laid` says which symbols the slots from a position on were made of.  The proof goes along the
block: to go on at its first slot is to do what it means and to go on behind it (`Block.goesOn_iff`),
and for the arms of a conditional the same is true of the position at which an IF or ELSE goes on,
whether the first arm is taken or left out (`Arms.goesOn_iff`).  What is done on the way may add to
the dictionary, but it leaves the entries of the block alone, and so the rest of the block still
means what it meant.
-/

namespace Threaded

/-! ## What leaves the dictionary alone -/

namespace Behaviour

/-- Wherever it ends, everything is kept. -/
def Keeps (x : Behaviour) : Prop :=
  ∀ (m : Machine) (r : Except Error Unit) (m' : Machine), x m (r, m') → m.Grows m'

namespace Keeps

variable {x y : Behaviour}

/-- Doing nothing keeps everything. -/
theorem done : Keeps done := by
  intro m r m' h
  cases h
  exact .refl m

/-- Two behaviours in turn keep what both of them keep. -/
theorem andThen (hx : x.Keeps) (hy : y.Keeps) : (x.andThen y).Keeps := by
  rintro m r m' ⟨r₁, m₁, h, hrest⟩
  cases r₁ with
  | ok => exact (hx m _ m₁ h).trans (hy m₁ r m' hrest)
  | error e =>
    cases hrest
    exact hx m _ m' h

/-- Opening frames keeps everything if the machine grows when they are made. -/
theorem opening {f : Machine → Except Error (List Frame) × Machine}
    (hf : ∀ m : Machine, m.Grows (f m).2) : (opening f).Keeps := by
  intro m r m' h
  have hgrows := hf m
  unfold Behaviour.opening at h
  generalize f m = opened at h hgrows
  rcases opened with ⟨e | frames, m₁⟩
  · cases h
    exact hgrows
  · exact hgrows.trans h.grows

/-- Taking an item keeps everything. -/
theorem popping {x : Cell → Behaviour} (hx : ∀ n, (x n).Keeps) : (popping x).Keeps := by
  intro m r m' h
  have hgrows := Machine.Grows.perform m Bench.pop
  unfold Behaviour.popping at h
  generalize m.perform Bench.pop = popped at h hgrows
  rcases popped with ⟨e | n, m₁⟩
  · cases h
    exact hgrows
  · exact hgrows.trans (hx n m₁ r m' h)

end Keeps

variable {x y y' : Behaviour} {m : Machine} {o : Ending}

/-- What comes second matters on the machines that the first can leave. -/
theorem Keeps.andThen_congr (hx : x.Keeps) (h : ∀ m₁, m.Grows m₁ → (y m₁ o ↔ y' m₁ o)) :
    x.andThen y m o ↔ x.andThen y' m o :=
  Behaviour.andThen_congr fun m₁ hm₁ => h m₁ (hx m _ m₁ hm₁)

/-- Only what follows on the machines that have grown matters. -/
theorem popping_congr {x y : Cell → Behaviour}
    (h : ∀ n m₁, m.Grows m₁ → (x n m₁ o ↔ y n m₁ o)) : popping x m o ↔ popping y m o := by
  have hgrows := Machine.Grows.perform m Bench.pop
  unfold popping
  generalize m.perform Bench.pop = popped at hgrows ⊢
  rcases popped with ⟨e | n, m₁⟩
  · exact Iff.rfl
  · exact h n m₁ hgrows

/-- What comes behind can be done in each of the cases. -/
theorem popping_andThen {x : Cell → Behaviour} :
    (popping x).andThen y m o ↔ popping (fun n => (x n).andThen y) m o := by
  unfold popping andThen
  dsimp only
  generalize m.perform Bench.pop = popped
  rcases popped with ⟨e | n, m₁⟩
  · constructor
    · rintro ⟨r, m₂, h, ho⟩
      cases h
      exact ho
    · intro ho
      exact ⟨.error e, m₁, rfl, ho⟩
  · exact Iff.rfl

end Behaviour

/-- A word that acts lets the machine grow. -/
theorem wordOpens_grows (d : Dict) (text : String) (m : Machine) :
    m.Grows (wordOpens d text m).2 := by
  unfold wordOpens
  split
  · split
    · exact .call m _ _
    · split <;> exact .refl m
    · exact .refl m
  · split
    · exact .act m _
    · exact .refl m

mutual

/-- A block keeps everything. -/
theorem Block.behaviour_keeps (d : Dict) : (b : Block) → (b.behaviour d).Keeps
  | .nil => .done
  | .word text rest =>
    (Behaviour.Keeps.opening (wordOpens_grows d text)).andThen (rest.behaviour_keeps d)
  | .cond arms rest =>
    (Behaviour.Keeps.popping fun n => arms.behaviour_keeps d (n ≠ 0)).andThen
      (rest.behaviour_keeps d)

/-- The arms of a conditional keep everything. -/
theorem Arms.behaviour_keeps (d : Dict) : (a : Arms) → (taken : Bool) →
    (a.behaviour d taken).Keeps
  | .last arm, true => arm.behaviour_keeps d
  | .last _, false => .done
  | .more arm others, true => (arm.behaviour_keeps d).andThen (others.behaviour_keeps d false)
  | .more _ others, false => others.behaviour_keeps d true

end

/-! ## Where symbols stand -/

/-- The slots of `body` from `ip` to its end were made of `symbols`: `d` is the dictionary before,
and `d'` has the entries that were registered. -/
def Laid (d d' : Dict) (body : Array Ref) : Nat → List Symbol → Prop
  | ip, [] => ip = body.size
  | ip, s :: rest =>
    (∃ r, body[ip]? = some r ∧ r = s.ref d r ∧ ∀ e, s.fresh? d rest = some e → d'.get? r = some e) ∧
      Laid d d' body (ip + 1) rest

namespace Laid

variable {d d' : Dict} {body : Array Ref}

/-- The image of a line is laid in its word. -/
theorem of_image : (symbols : List Symbol) → (next ip : Nat) →
    body.toList.drop ip = Symbol.slotRefs d next symbols → ip ≤ body.size →
    (∀ i, d'.get? (next + i) = (Symbol.freshEntries d symbols)[i]?) →
      Laid d d' body ip symbols
  | [], next, ip, hcode, hip, _ => by
    have hlen : body.size ≤ ip := by
      simpa [Symbol.slotRefs] using hcode
    exact Nat.le_antisymm hip hlen
  | s :: rest, next, ip, hcode, hip, hfresh => by
    rw [Symbol.slotRefs] at hcode
    have hslot : body[ip]? = some (s.ref d next) := by
      rw [← Array.getElem?_toList, ← List.head?_drop, hcode]
      rfl
    have hrest : body.toList.drop (ip + 1) =
        Symbol.slotRefs d (next + (s.fresh? d rest).toList.length) rest := by
      rw [← List.drop_drop, hcode]
      rfl
    have hlt : ip < body.size := (Array.getElem?_eq_some_iff.1 hslot).1
    refine ⟨⟨_, hslot, ?_, fun e he => ?_⟩,
      of_image rest _ (ip + 1) hrest hlt (get?_behind_fresh? hfresh)⟩
    · cases s with
      | word name =>
        simp only [Symbol.ref]
        cases d.lookup name <;> rfl
      | _ => rfl
    · have href : s.ref d next = next := by
        cases s with
        | endMark => cases he
        | word name =>
          simp only [Symbol.fresh?] at he
          simp only [Symbol.ref]
          cases hd : d.lookup name with
          | some r =>
            rw [hd] at he
            simp at he
          | none => rfl
        | _ => rfl
      rw [href]
      exact get?_of_fresh? hfresh he

/-- The symbols that are laid out reach to the end of the word. -/
theorem length_eq : (symbols : List Symbol) → (ip : Nat) → Laid d d' body ip symbols →
    ip + symbols.length = body.size
  | [], _, h => h
  | _ :: rest, ip, h => by
    have := length_eq rest (ip + 1) h.2
    rw [List.length_cons]
    omega

/-- Symbols behind others stand behind them. -/
theorem behind : (before : List Symbol) → (ip : Nat) → (rest : List Symbol) →
    Laid d d' body ip (before ++ rest) → Laid d d' body (ip + before.length) rest
  | [], _, _, h => h
  | _ :: before, ip, rest, h => by
    have := behind before (ip + 1) rest h.2
    rwa [List.length_cons, Nat.add_comm before.length, ← Nat.add_assoc]

end Laid

/-! ## Going on at a slot -/

section Simulation

variable {d d' : Dict} {body : Array Ref} {ip : Nat} {rest : List Symbol} {m : Machine}
  {o : Ending}

/-- To go on with the slot `ip` of a word. -/
def goesOn (body : Array Ref) (ip : Nat) : Behaviour :=
  .ofFrames [.code body ip 0]

/-- The word is laid in a dictionary that has room for no wild jump. -/
structure Ground (d d' : Dict) (body : Array Ref) : Prop where
  nop : d.get? Threaded.nop = some (.primitive "NOP" .nop)
  grows : d.Extends d'
  size : body.size < 2 ^ 63 - 1

/-- The entry in a slot decides the next step. -/
theorem step_of_get? {r : Ref} {e : Entry} (hr : body[ip]? = some r)
    (he : m.dict.get? r = some e) :
    Thread.step ⟨m, [.code body ip 0]⟩ = Thread.enter m body ip 0 r [] e := by
  have hentry : m.dict.entry r = .ok e := by
    unfold Dict.entry
    rw [he]
  unfold Thread.step
  simp only [hr, hentry]

/-- A branch to its ELSE or END goes on behind that. -/
theorem jump_arm {s : Symbol} {n : Nat} (hg : Ground d d' body)
    (hlaid : Laid d d' body ip (s :: rest)) (hn : Symbol.closer 0 rest = some n) :
    Thread.jump body ip 0 (Symbol.arm (some n)) = .ok [.code body (ip + 1 + n + 1) 0] := by
  have hlt := Symbol.closer_lt hn
  have hlen := hlaid.length_eq
  have hsize := hg.size
  rw [List.length_cons] at hlen
  unfold Thread.jump Symbol.arm
  rw [Jump.target_ofCount (by omega) hsize, show ip + (n + 1) + 1 = ip + 1 + n + 1 by omega]
  rfl

/-- **A word acts as it means**, and then the word behind it is next. -/
theorem goesOn_word {text : String} (hg : Ground d d' body)
    (hlaid : Laid d d' body ip (.word text :: rest)) (hword : Resolves d text)
    (hm : d'.Extends m.dict) :
    goesOn body ip m o ↔
      (Behaviour.opening (wordOpens d text)).andThen (goesOn body (ip + 1)) m o := by
  obtain ⟨⟨r, hr, href, hfresh⟩, _⟩ := hlaid
  apply Behaviour.endsIn_goOn
  unfold wordOpens
  cases hl : d.lookup text with
  | some r' =>
    obtain rfl : r = r' := by
      rw [href, Symbol.ref, hl]
      rfl
    obtain ⟨e, he, hname, _⟩ := Dict.get?_of_lookup hl
    rw [step_of_get? hr (hm.get? (hg.grows.get? he))]
    simp only [he]
    cases e with
    | primitive name action => rfl
    | compound w =>
      simp only [Thread.enter, Nat.zero_add]
      split <;> rfl
    | literal | branch | zbranch => cases hname
  | none =>
    obtain ⟨n, hn⟩ : ∃ n, Text.Decimal.literal? text = some n := by
      rcases hword with h | h
      · exact absurd hl h
      · exact Option.ne_none_iff_exists'.1 h
    have he : d'.get? r = some (.literal n) :=
      hfresh _ (by simp only [Symbol.fresh?, hl, hn, Option.map_some])
    rw [step_of_get? hr (hm.get? he)]
    simp only [hn]
    rfl

/-- An END does nothing. -/
theorem goesOn_endMark (hg : Ground d d' body) (hlaid : Laid d d' body ip (.endMark :: rest))
    (hm : d'.Extends m.dict) : goesOn body ip m o ↔ goesOn body (ip + 1) m o := by
  obtain ⟨⟨r, hr, href, _⟩, _⟩ := hlaid
  rw [href] at hr
  unfold goesOn Behaviour.ofFrames
  rw [Thread.endsIn_iff, step_of_get? hr (hm.get? (hg.grows.get? hg.nop))]
  rfl

/-- An ELSE goes on behind what closes it. -/
theorem goesOn_elseMark {n : Nat} (hg : Ground d d' body)
    (hlaid : Laid d d' body ip (.elseMark :: rest)) (hn : Symbol.closer 0 rest = some n)
    (hm : d'.Extends m.dict) : goesOn body ip m o ↔ goesOn body (ip + 1 + n + 1) m o := by
  have hjump := jump_arm hg hlaid hn
  obtain ⟨⟨r, hr, _, hfresh⟩, _⟩ := hlaid
  have he : d'.get? r = some (.branch (Symbol.arm (some n))) := by
    rw [← hn]
    exact hfresh _ rfl
  unfold goesOn Behaviour.ofFrames
  rw [Thread.endsIn_iff, step_of_get? hr (hm.get? he), Thread.enter, hjump]
  rfl

/-- An IF takes a number off the stack and goes on behind itself, or behind what closes it if the
number is zero. -/
theorem goesOn_ifMark {n : Nat} (hg : Ground d d' body)
    (hlaid : Laid d d' body ip (.ifMark :: rest)) (hn : Symbol.closer 0 rest = some n)
    (hm : d'.Extends m.dict) :
    goesOn body ip m o ↔
      Behaviour.popping
        (fun k => goesOn body (if k = 0 then ip + 1 + n + 1 else ip + 1)) m o := by
  have hjump := jump_arm hg hlaid hn
  obtain ⟨⟨r, hr, _, hfresh⟩, _⟩ := hlaid
  have he : d'.get? r = some (.zbranch (Symbol.arm (some n))) := by
    rw [← hn]
    exact hfresh _ rfl
  unfold goesOn Behaviour.ofFrames Behaviour.popping
  rw [Thread.endsIn_iff, step_of_get? hr (hm.get? he), Thread.enter, hjump]
  rcases m.perform Bench.pop with ⟨e | k, m₁⟩
  · rfl
  · by_cases hk : k = 0
    · simp only [if_pos hk]
      rfl
    · simp only [if_neg hk]

end Simulation

/-- The position at which the arms of a conditional go on that stand at `ip`: at the first arm, or
behind it. -/
def Arms.start (a : Arms) (ip : Nat) : Bool → Nat
  | true => ip
  | false => ip + a.first.symbols.length + 1

mutual

/-- **To go on at a block is to do what it means and to go on behind it.** -/
theorem Block.goesOn_iff {d d' : Dict} {body : Array Ref} (hg : Ground d d' body) :
    (b : Block) → (∀ t ∈ b.words, Resolves d t) → (ip : Nat) → (rest : List Symbol) →
    Laid d d' body ip (b.symbols ++ rest) → (m : Machine) → d'.Extends m.dict → (o : Ending) →
      (goesOn body ip m o ↔
        (b.behaviour d).andThen (goesOn body (ip + b.symbols.length)) m o)
  | .nil, _, ip, rest, _, m, _, o => Behaviour.done_andThen.symm
  | .word text b, hwords, ip, rest, hlaid, m, hm, o => by
    have hkeeps : (Behaviour.opening (wordOpens d text)).Keeps :=
      .opening (wordOpens_grows d text)
    have ih := b.goesOn_iff hg (fun t ht => hwords t (List.mem_cons_of_mem _ ht)) (ip + 1) rest
      hlaid.2
    have hlen : ip + (Block.word text b).symbols.length = ip + 1 + b.symbols.length := by
      rw [Block.symbols, List.length_cons]
      omega
    rw [hlen, Block.behaviour, Behaviour.andThen_assoc,
      goesOn_word hg hlaid (hwords text List.mem_cons_self) hm]
    exact hkeeps.andThen_congr fun m₁ hm₁ => ih m₁ (hm.trans hm₁.dict) o
  | .cond arms b, hwords, ip, rest, hlaid, m, hm, o => by
    rw [Block.symbols, List.cons_append, List.append_assoc] at hlaid
    have harms := arms.goesOn_iff hg (fun t ht => hwords t (List.mem_append_left _ ht)) (ip + 1)
      (b.symbols ++ rest) hlaid.2
    have ih := b.goesOn_iff hg (fun t ht => hwords t (List.mem_append_right _ ht)) _ rest
      (hlaid.2.behind _ _ _)
    have hlen : ip + (Block.cond arms b).symbols.length =
        ip + 1 + arms.symbols.length + b.symbols.length := by
      rw [Block.symbols, List.length_cons, List.length_append]
      omega
    rw [hlen, Block.behaviour, Behaviour.andThen_assoc, Behaviour.popping_andThen,
      goesOn_ifMark hg hlaid (arms.closer_first _) hm]
    apply Behaviour.popping_congr
    intro n m₁ hm₁
    have hstart : (if n = 0 then ip + 1 + arms.first.symbols.length + 1 else ip + 1) =
        arms.start (ip + 1) (decide (n ≠ 0)) := by
      by_cases hn : n = 0
      · simp [hn, Arms.start]
      · simp [hn, Arms.start]
    rw [hstart, harms _ m₁ (hm.trans hm₁.dict) o]
    exact (arms.behaviour_keeps d _).andThen_congr fun m₂ hm₂ =>
      ih m₂ ((hm.trans hm₁.dict).trans hm₂.dict) o

/-- **To go on at the arms of a conditional is to do what they mean and to go on behind its
END**, whether the first arm is taken or left out. -/
theorem Arms.goesOn_iff {d d' : Dict} {body : Array Ref} (hg : Ground d d' body) :
    (a : Arms) → (∀ t ∈ a.words, Resolves d t) → (ip : Nat) → (rest : List Symbol) →
    Laid d d' body ip (a.symbols ++ rest) → (taken : Bool) → (m : Machine) →
    d'.Extends m.dict → (o : Ending) →
      (goesOn body (a.start ip taken) m o ↔
        (a.behaviour d taken).andThen (goesOn body (ip + a.symbols.length)) m o)
  | .last arm, hwords, ip, rest, hlaid, true, m, hm, o => by
    rw [Arms.symbols, List.append_assoc] at hlaid
    have harm := arm.goesOn_iff hg hwords ip _ hlaid m hm o
    have hbehind := hlaid.behind _ _ _
    rw [Arms.symbols, List.length_append, List.length_singleton, ← Nat.add_assoc, Arms.start, harm]
    exact (arm.behaviour_keeps d).andThen_congr fun m₁ hm₁ =>
      goesOn_endMark hg hbehind (hm.trans hm₁.dict)
  | .last arm, _, ip, rest, _, false, m, _, o => by
    rw [Arms.symbols, List.length_append, List.length_singleton, ← Nat.add_assoc]
    exact Behaviour.done_andThen.symm
  | .more arm others, hwords, ip, rest, hlaid, true, m, hm, o => by
    rw [Arms.symbols, List.append_assoc, List.cons_append] at hlaid
    have harm := arm.goesOn_iff hg (fun t ht => hwords t (List.mem_append_left _ ht)) ip _ hlaid
      m hm o
    have hbehind := hlaid.behind _ _ _
    have hothers := others.goesOn_iff hg (fun t ht => hwords t (List.mem_append_right _ ht)) _
      rest hbehind.2 false
    have hlen : ip + (Arms.more arm others).symbols.length =
        ip + arm.symbols.length + 1 + others.symbols.length := by
      rw [Arms.symbols, List.length_append, List.length_cons]
      omega
    rw [hlen, Arms.start, harm, Arms.behaviour, Behaviour.andThen_assoc]
    refine (arm.behaviour_keeps d).andThen_congr ?_
    intro m₁ hm₁
    rw [goesOn_elseMark hg hbehind (others.closer_first rest) (hm.trans hm₁.dict)]
    exact hothers m₁ (hm.trans hm₁.dict) o
  | .more arm others, hwords, ip, rest, hlaid, false, m, hm, o => by
    rw [Arms.symbols, List.append_assoc, List.cons_append] at hlaid
    have hothers := others.goesOn_iff hg (fun t ht => hwords t (List.mem_append_right _ ht)) _
      rest (hlaid.behind _ _ _).2 true m hm o
    have hlen : ip + (Arms.more arm others).symbols.length =
        ip + arm.symbols.length + 1 + others.symbols.length := by
      rw [Arms.symbols, List.length_append, List.length_cons]
      omega
    rw [hlen, Arms.behaviour]
    exact hothers

end

/-! ## Whole lines -/

/-- Nothing more is done behind a behaviour. -/
theorem Behaviour.andThen_done {x : Behaviour} {m : Machine} {o : Ending} :
    x.andThen done m o ↔ x m o := by
  constructor
  · rintro ⟨r, m₁, hx, ho⟩
    cases r <;> cases ho <;> exact hx
  · intro hx
    obtain ⟨r, m₁⟩ := o
    exact ⟨r, m₁, hx, by cases r <;> rfl⟩

/-- Behind its last slot a word is done. -/
theorem goesOn_size {body : Array Ref} {m : Machine} {o : Ending} :
    goesOn body body.size m o ↔ Behaviour.done m o := by
  have hstep : Thread.step ⟨m, [.code body body.size 0]⟩ = .next ⟨m, []⟩ := by
    unfold Thread.step
    simp only [Array.getElem?_eq_none (Nat.le_refl body.size)]
  unfold goesOn Behaviour.ofFrames
  rw [Thread.endsIn_iff, hstep]
  exact Behaviour.ofFrames_nil

/-- Tokens that fit are not too long. -/
theorem firstTooLong?_eq_none {nameLen : Nat} {line : String}
    (h : ∀ t ∈ lineTexts line, t.utf8ByteSize ≤ nameLen) : firstTooLong? nameLen line = none := by
  apply List.find?_eq_none.2
  intro r hr
  have hfit := h _ (List.mem_map_of_mem hr)
  rw [utf8ByteSize_eq_extent, String.toList_ofList] at hfit
  intro hlong
  exact Nat.not_lt_of_le hfit (of_decide_eq_true hlong)

/-- The slots that a line is compiled into, none for a line without tokens. -/
def slotsOf (w : Option Word) : Array Ref :=
  (w.map Word.body).getD #[]

namespace Machine

variable {allowed : Command → Prop} {m m' : Machine}

/-- The slots of a line pass the check on the machine that the line leaves. -/
theorem check_slotsOf {line : String} {w : Option Word} (h : m.compile line = (.ok w, m')) :
    Jump.check m'.dict (slotsOf w) = .ok () := by
  cases w with
  | none => rfl
  | some w => exact check_of_compile h

/-- **To evaluate a line that compiles** is to go on with the first of its slots. -/
theorem evalsTo_iff_goesOn {line : String} {w : Option Word} (h : m.compile line = (.ok w, m'))
    (o : Ending) : m.EvalsTo line o ↔ goesOn (slotsOf w) 0 m' o := by
  rw [evalsTo_iff, h]
  cases w with
  | none => exact (@goesOn_size #[] m' o).symm
  | some w => exact runsTo_iff (check_of_compile h) o

/-- **Conditionals keep their meaning.**  A line whose tokens are those of a block, each of them
short enough and each word known or a number, compiles; and from then on, on every machine that
may have come of it and with everything that may be on its stack, the word does what the block
means. -/
theorem compile_block (h : Reachable allowed m) {b : Block} (hb : b ≠ .nil)
    (hwords : ∀ t ∈ b.words, Symbol.ofText t = .word t ∧ Resolves m.dict t)
    (hfit : ∀ t ∈ b.texts, t.utf8ByteSize ≤ m.limits.nameLen) {line : String}
    (htexts : lineTexts line = b.texts) (hline : line.utf8ByteSize < 2 ^ 63) :
    ∃ w m', m.compile line = (.ok (some w), m') ∧ m'.bench = m.bench ∧ m'.limits = m.limits ∧
      m.dict.ExtendsUnnamed m'.dict ∧
      ∀ m₁, m'.Grows m₁ → ∀ o, m₁.RunsTo w o ↔ b.behaviour m.dict m₁ o := by
  have hsymbols : lineSymbols line = b.symbols := by
    unfold lineSymbols
    rw [htexts]
    exact b.map_ofText_texts fun t ht => (hwords t ht).1
  have hresolves : ∀ t ∈ b.words, Resolves m.dict t := fun t ht => (hwords t ht).2
  have hmax : b.symbols.length < 2 ^ 63 - 1 := by
    have := two_mul_length_lineRuns_le line
    rw [← hsymbols, length_lineSymbols]
    omega
  obtain ⟨w, d', hw, hcode, hfresh, hgrows⟩ :=
    exists_image_of_blame? h.get?_nop hmax (Block.blame?_eq_none hresolves)
  have hcompile : m.compile line = (.ok (some w), { m with dict := d' }) := by
    have hlong : firstTooLong? m.limits.nameLen line = none :=
      firstTooLong?_eq_none (htexts ▸ hfit)
    have hblank : b.symbols ≠ [] := by
      cases b with
      | nil => exact absurd rfl hb
      | word | cond => exact List.cons_ne_nil _ _
    rw [compile_eq, hlong, hsymbols]
    simp only [if_neg hblank, hw]
    rfl
  refine ⟨w, { m with dict := d' }, hcompile, rfl, rfl, hgrows, ?_⟩
  intro m₁ hm₁ o
  have hlaid : Laid m.dict d' w.body 0 b.symbols :=
    Laid.of_image _ _ _ hcode (Nat.zero_le _) hfresh
  have hsize : 0 + b.symbols.length = w.body.size := hlaid.length_eq
  have hground : Ground m.dict d' w.body := ⟨h.get?_nop, hgrows.toExtends, by omega⟩
  rw [runsTo_iff (hm₁.dict.check_eq_ok (check_of_compile hcompile))]
  show goesOn w.body 0 m₁ o ↔ _
  rw [b.goesOn_iff hground hresolves 0 [] (by rwa [List.append_nil]) m₁ hm₁.dict o, hsize]
  rw [(b.behaviour_keeps m.dict).andThen_congr fun m₂ _ => goesOn_size]
  exact Behaviour.andThen_done

/-- A choice between two numbers. -/
theorem compile_block_choice :
    lineTexts "IF 1 ELSE 2 END" =
        (Block.cond (.more (.word "1" .nil) (.last (.word "2" .nil))) .nil).texts ∧
      ∃ w m', (boot {}).compile "IF 1 ELSE 2 END" = (.ok (some w), m') ∧
        ∀ m₁, m'.Grows m₁ → ∀ o, m₁.RunsTo w o ↔
          (Block.cond (.more (.word "1" .nil) (.last (.word "2" .nil))) .nil).behaviour
            (boot {}).dict m₁ o := by
  have hreach : Reachable (fun _ => True) (boot {}) := .boot {}
  have htexts : lineTexts "IF 1 ELSE 2 END" =
      (Block.cond (.more (.word "1" .nil) (.last (.word "2" .nil))) .nil).texts := by decide
  obtain ⟨w, m', hcompile, _, _, _, hruns⟩ := compile_block hreach (by simp)
    (by simp [Block.words, Arms.words, Resolves]; decide) (by decide) htexts (by decide)
  exact ⟨htexts, w, m', hcompile, hruns⟩

end Machine

end Threaded
