import Threaded.Proofs.Runs
import Threaded.Proofs.Verdict

/-!
# Structured conditionals

A **block** is a sequence of words and conditionals, and a conditional is one or more arms, which
are blocks again.  Written out, an IF stands before the first arm, an ELSE between two of them and
an END behind the last.

What a block means is said here without slots and jumps (`Block.behaviour`).  A word acts as the
entry it names does, or is pushed if it is a number.  A conditional takes a number off the stack
and goes through its arms, taking every other one: the first, third and so on if the number is not
zero, and the second, fourth and so on if it is.  A word that is not known means nothing, and is
given a meaning for the sake of form.

The rest is about the symbols of a block.  Inside a block everything that is opened is closed, so
a branch that was open before is closed behind it (`Block.closer_append`), and there is nothing in
it to blame (`Block.blame?_eq_none`).
-/

namespace Threaded

mutual

/-- A sequence of words and conditionals. -/
inductive Block
  | nil
  | word (text : String) (rest : Block)
  | cond (arms : Arms) (rest : Block)

/-- The arms of a conditional. -/
inductive Arms
  | last (arm : Block)
  | more (arm : Block) (others : Arms)

end

/-! ## Writing -/

mutual

/-- The tokens of a block. -/
def Block.texts : Block → List String
  | .nil => []
  | .word text rest => text :: rest.texts
  | .cond arms rest => "IF" :: (arms.texts ++ rest.texts)

/-- The tokens of the arms of a conditional and of its END. -/
def Arms.texts : Arms → List String
  | .last arm => arm.texts ++ ["END"]
  | .more arm others => arm.texts ++ "ELSE" :: others.texts

end

mutual

/-- The words of a block. -/
def Block.words : Block → List String
  | .nil => []
  | .word text rest => text :: rest.words
  | .cond arms rest => arms.words ++ rest.words

/-- The words of the arms. -/
def Arms.words : Arms → List String
  | .last arm => arm.words
  | .more arm others => arm.words ++ others.words

end

mutual

/-- The symbols of a block. -/
def Block.symbols : Block → List Symbol
  | .nil => []
  | .word text rest => .word text :: rest.symbols
  | .cond arms rest => .ifMark :: (arms.symbols ++ rest.symbols)

/-- The symbols of the arms, up to their END. -/
def Arms.symbols : Arms → List Symbol
  | .last arm => arm.symbols ++ [.endMark]
  | .more arm others => arm.symbols ++ .elseMark :: others.symbols

end

mutual

/-- The tokens of a block stand for its symbols, if each of its words stands for a word. -/
theorem Block.map_ofText_texts : (b : Block) →
    (∀ text ∈ b.words, Symbol.ofText text = .word text) →
      b.texts.map Symbol.ofText = b.symbols
  | .nil, _ => rfl
  | .word text rest, h => by
    have htext := h text List.mem_cons_self
    have hrest := rest.map_ofText_texts fun t ht => h t (List.mem_cons_of_mem _ ht)
    rw [Block.texts, Block.symbols, List.map_cons, htext, hrest]
  | .cond arms rest, h => by
    have hif : Symbol.ofText "IF" = .ifMark := by decide
    have harms := arms.map_ofText_texts fun t ht => h t (List.mem_append_left _ ht)
    have hrest := rest.map_ofText_texts fun t ht => h t (List.mem_append_right _ ht)
    rw [Block.texts, Block.symbols, List.map_cons, List.map_append, hif, harms, hrest]

/-- The texts of the arms are read as their symbols. -/
theorem Arms.map_ofText_texts : (a : Arms) →
    (∀ text ∈ a.words, Symbol.ofText text = .word text) →
      a.texts.map Symbol.ofText = a.symbols
  | .last arm, h => by
    have hend : Symbol.ofText "END" = .endMark := by decide
    rw [Arms.texts, Arms.symbols, List.map_append, arm.map_ofText_texts h, List.map_singleton,
      hend]
  | .more arm others, h => by
    have helse : Symbol.ofText "ELSE" = .elseMark := by decide
    have harm := arm.map_ofText_texts fun t ht => h t (List.mem_append_left _ ht)
    have hothers := others.map_ofText_texts fun t ht => h t (List.mem_append_right _ ht)
    rw [Arms.texts, Arms.symbols, List.map_append, List.map_cons, harm, helse, hothers]

end

/-! ## Meaning -/

/-- What the word `text` does that was known, or was not, to the dictionary `d`.  A call is one
level deeper than the block. -/
def wordOpens (d : Dict) (text : String) (m : Machine) : Except Error (List Frame) × Machine :=
  match d.lookup text with
  | some r =>
    match d.get? r with
    | some (.primitive _ action) => m.call r action
    | some (.compound w) =>
      if m.limits.maxDepth < 1 then (.error (.recursionLimitExceeded 1), m)
      else (.ok [.code w.body 0 1], m)
    | _ => (.error (.invalidEntry r), m)
  | none =>
    match Text.Decimal.literal? text with
    | some n => m.act (Bench.push n)
    | none => (.error (.unknownWord text), m)

/-- To take a number off the stack and go on by it. -/
def Behaviour.popping (x : Cell → Behaviour) : Behaviour := fun m o =>
  match m.perform Bench.pop with
  | (.ok n, m) => x n m o
  | (.error e, m) => o = (.error e, m)

mutual

/-- What a block does, its words being those of the dictionary `d`. -/
def Block.behaviour (d : Dict) : Block → Behaviour
  | .nil => .done
  | .word text rest => (Behaviour.opening (wordOpens d text)).andThen (rest.behaviour d)
  | .cond arms rest =>
    (Behaviour.popping fun n => arms.behaviour d (n ≠ 0)).andThen (rest.behaviour d)

/-- What the arms of a conditional do: the first is taken or not, and then every other one. -/
def Arms.behaviour (d : Dict) : Arms → Bool → Behaviour
  | .last arm, true => arm.behaviour d
  | .last _, false => .done
  | .more arm others, true => (arm.behaviour d).andThen (others.behaviour d false)
  | .more _ others, false => others.behaviour d true

end

/-! ## What closes a branch -/

/-- The arm of a conditional that comes first. -/
def Arms.first : Arms → Block
  | .last arm => arm
  | .more arm _ => arm

mutual

/-- **A branch that is open before a block is closed behind it.** -/
theorem Block.closer_append : (b : Block) → (depth : Nat) → (rest : List Symbol) →
    Symbol.closer depth (b.symbols ++ rest) =
      (Symbol.closer depth rest).map (· + b.symbols.length)
  | .nil, depth, rest => by
    rw [Block.symbols, List.nil_append]
    exact Option.map_id'.symm
  | .word text b, depth, rest => by
    rw [Block.symbols, List.cons_append, Symbol.closer, b.closer_append, Option.map_map]
    rfl
  | .cond arms b, depth, rest => by
    rw [Block.symbols, List.cons_append, List.append_assoc, Symbol.closer, arms.closer_append,
      b.closer_append, Option.map_map, Option.map_map, List.length_cons, List.length_append]
    congr 1
    funext n
    simp only [Function.comp_apply]
    omega

/-- The END of a conditional closes its last branch and no other. -/
theorem Arms.closer_append : (a : Arms) → (depth : Nat) → (rest : List Symbol) →
    Symbol.closer (depth + 1) (a.symbols ++ rest) =
      (Symbol.closer depth rest).map (· + a.symbols.length)
  | .last arm, depth, rest => by
    rw [Arms.symbols, List.append_assoc, List.singleton_append, arm.closer_append,
      Symbol.closer, Option.map_map, List.length_append]
    congr 1
    funext n
    simp only [Function.comp_apply, List.length_singleton]
    omega
  | .more arm others, depth, rest => by
    rw [Arms.symbols, List.append_assoc, List.cons_append, arm.closer_append, Symbol.closer,
      others.closer_append, Option.map_map, Option.map_map, List.length_append, List.length_cons]
    congr 1
    funext n
    simp only [Function.comp_apply]
    omega

end

/-- The branch in front of the arms is closed behind the first of them. -/
theorem Arms.closer_first (a : Arms) (rest : List Symbol) :
    Symbol.closer 0 (a.symbols ++ rest) = some a.first.symbols.length := by
  cases a with
  | last arm =>
    rw [Arms.symbols, List.append_assoc, List.singleton_append, arm.closer_append]
    simp [Symbol.closer, Arms.first]
  | more arm others =>
    rw [Arms.symbols, List.append_assoc, List.cons_append, arm.closer_append]
    simp [Symbol.closer, Arms.first]

/-! ## Nothing to blame -/

mutual

/-- A block closes what it opens. -/
theorem Block.count_symbols : (b : Block) →
    b.symbols.count .endMark = b.symbols.count .ifMark
  | .nil => rfl
  | .word text b => by
    rw [Block.symbols, List.count_cons, List.count_cons, b.count_symbols]
    simp
  | .cond arms b => by
    rw [Block.symbols, List.count_cons, List.count_cons, List.count_append, List.count_append,
      b.count_symbols, arms.count_symbols]
    simp
    omega

/-- The arms of a conditional close one branch more. -/
theorem Arms.count_symbols : (a : Arms) →
    a.symbols.count .endMark = a.symbols.count .ifMark + 1
  | .last arm => by
    rw [Arms.symbols, List.count_append, List.count_append, arm.count_symbols]
    simp
  | .more arm others => by
    rw [Arms.symbols, List.count_append, List.count_append, List.count_cons, List.count_cons,
      arm.count_symbols, others.count_symbols]
    simp
    omega

end

/-- A word that is known or a number. -/
def Resolves (d : Dict) (text : String) : Prop :=
  d.lookup text ≠ none ∨ Text.Decimal.literal? text ≠ none

mutual

/-- **No symbol of a block is at fault**, wherever the block stands. -/
theorem Block.faultFrom_append {d : Dict} : (b : Block) → (∀ t ∈ b.words, Resolves d t) →
    (before rest : List Symbol) → before.count .endMark ≤ before.count .ifMark →
      Symbol.faultFrom d before (b.symbols ++ rest) =
        Symbol.faultFrom d (before ++ b.symbols) rest
  | .nil, _, before, rest, _ => by
    rw [Block.symbols, List.append_nil, List.nil_append]
  | .word text b, h, before, rest, hcount => by
    have hword : ¬ (d.lookup text = none ∧ Text.Decimal.literal? text = none) := by
      rintro ⟨hl, hn⟩
      rcases h text List.mem_cons_self with hr | hr
      · exact hr hl
      · exact hr hn
    have ih := b.faultFrom_append (fun t ht => h t (List.mem_cons_of_mem _ ht))
      (before ++ [.word text]) rest (by simpa using hcount)
    rw [Block.symbols, List.cons_append, Symbol.faultFrom, Symbol.fault?, if_neg hword,
      Option.none_or, ih, List.append_assoc, List.singleton_append]
  | .cond arms b, h, before, rest, hcount => by
    have harms := arms.faultFrom_append (fun t ht => h t (List.mem_append_left _ ht))
      (before ++ [.ifMark]) (b.symbols ++ rest) (by simp; omega)
    have ih := b.faultFrom_append (fun t ht => h t (List.mem_append_right _ ht))
      (before ++ [.ifMark] ++ arms.symbols) rest (by
        have := arms.count_symbols
        simp
        omega)
    rw [Block.symbols, List.cons_append, Symbol.faultFrom, Symbol.fault?, Option.none_or,
      List.append_assoc, harms, ih]
    simp

/-- There is no fault in the arms when an IF is open. -/
theorem Arms.faultFrom_append {d : Dict} : (a : Arms) → (∀ t ∈ a.words, Resolves d t) →
    (before rest : List Symbol) → before.count .endMark < before.count .ifMark →
      Symbol.faultFrom d before (a.symbols ++ rest) =
        Symbol.faultFrom d (before ++ a.symbols) rest
  | .last arm, h, before, rest, hcount => by
    have hbal := arm.count_symbols
    have hend : ¬ (before ++ arm.symbols).count .ifMark = (before ++ arm.symbols).count .endMark := by
      rw [List.count_append, List.count_append]
      omega
    rw [Arms.symbols, List.append_assoc, arm.faultFrom_append h _ _ (Nat.le_of_lt hcount),
      List.singleton_append, Symbol.faultFrom, Symbol.fault?, if_neg hend, Option.none_or,
      List.append_assoc]
  | .more arm others, h, before, rest, hcount => by
    have hbal := arm.count_symbols
    have helse : ¬ (before ++ arm.symbols).count .ifMark =
        (before ++ arm.symbols).count .endMark := by
      rw [List.count_append, List.count_append]
      omega
    have hothers := others.faultFrom_append (fun t ht => h t (List.mem_append_right _ ht))
      (before ++ arm.symbols ++ [.elseMark]) rest (by
        simp
        omega)
    rw [Arms.symbols, List.append_assoc,
      arm.faultFrom_append (fun t ht => h t (List.mem_append_left _ ht)) _ _ (Nat.le_of_lt hcount),
      List.cons_append, Symbol.faultFrom, Symbol.fault?, if_neg helse, Option.none_or, hothers]
    simp

end

mutual

/-- There is no branch written by hand in a block. -/
theorem Block.outside?_of_mem : (b : Block) → (s : Symbol) → s ∈ b.symbols →
    ∀ count t, s.outside? count t = none
  | .nil, s, hs => by cases hs
  | .word text b, s, hs => by
    rcases List.mem_cons.1 hs with rfl | hs
    · intro _ _
      exact rfl
    · exact b.outside?_of_mem s hs
  | .cond arms b, s, hs => by
    rcases List.mem_cons.1 hs with rfl | hs
    · intro _ _
      exact rfl
    · rcases List.mem_append.1 hs with hs | hs
      · exact arms.outside?_of_mem s hs
      · exact b.outside?_of_mem s hs

/-- No symbol of the arms is a branch by hand. -/
theorem Arms.outside?_of_mem : (a : Arms) → (s : Symbol) → s ∈ a.symbols →
    ∀ count t, s.outside? count t = none
  | .last arm, s, hs => by
    rcases List.mem_append.1 hs with hs | hs
    · exact arm.outside?_of_mem s hs
    · obtain rfl := List.mem_singleton.1 hs
      intro _ _
      exact rfl
  | .more arm others, s, hs => by
    rcases List.mem_append.1 hs with hs | hs
    · exact arm.outside?_of_mem s hs
    · rcases List.mem_cons.1 hs with rfl | hs
      · intro _ _
        exact rfl
      · exact others.outside?_of_mem s hs

end

/-- **There is nothing to blame in a block.** -/
theorem Block.blame?_eq_none {d : Dict} {b : Block} (h : ∀ t ∈ b.words, Resolves d t) :
    blame? d b.symbols = none := by
  have hfault : Symbol.faultFrom d [] b.symbols = none := by
    have hall := b.faultFrom_append h [] [] (Nat.le_refl _)
    rwa [List.append_nil] at hall
  have hcount : ¬ b.symbols.count .endMark < b.symbols.count .ifMark := by
    rw [b.count_symbols]
    exact Nat.lt_irrefl _
  have houtside : firstOutside? b.symbols = none :=
    List.findSome?_eq_none_iff.2 fun ⟨s, t⟩ hmem =>
      b.outside?_of_mem s (List.fst_mem_of_mem_zipIdx hmem) _ t
  unfold blame?
  rw [firstBad?_eq_faultFrom, hfault]
  simp only [if_neg hcount, houtside]

end Threaded
