import Mathlib.Data.Nat.Digits.Defs
import Threaded.Proofs.Cell
import Threaded.Token

/-!
# How tokens are spelled

What a token stands for is decided by its text, and this module says which texts stand for what.  A
number is at least one ASCII digit, read in base ten, behind one of the signs that are allowed or
none (`Text.Decimal.Signed`).  A literal allows both signs.  A branch has its number right behind its
verb and allows a minus sign only.  In either case a number that is no cell does not count, so a
branch that would go too far is a word like any other (`token_grammar`).

The value of the digits is that of the library (`Nat.ofDigits`).  A cell that is written out is read
back as itself, behind either verb too.
-/

namespace Threaded

namespace Text.Decimal

variable {cs digits : List Char} {n : Nat} {v : Int}

/-! ## Digits -/

/-- What a digit counts. -/
def digit (c : Char) : Nat :=
  c.toNat - '0'.toNat

/-- These are digits, at least one, and they make `n` in base ten. -/
structure Denote (digits : List Char) (n : Nat) : Prop where
  nonempty : digits ≠ []
  ascii : ∀ c ∈ digits, '0' ≤ c ∧ c ≤ '9'
  value : Nat.ofDigits 10 (digits.reverse.map digit) = n

/-- The library's two readings of digits give one value. -/
theorem ofDigitChars_eq_ofDigits : (cs : List Char) →
    Nat.ofDigitChars 10 cs 0 = Nat.ofDigits 10 (cs.reverse.map digit)
  | [] => rfl
  | c :: cs => by
    have ih := ofDigitChars_eq_ofDigits cs
    rw [Nat.ofDigitChars_cons, Nat.ofDigitChars_eq_ofDigitChars_zero, ih, List.reverse_cons,
      List.map_append, List.map_singleton, Nat.ofDigits_append, List.length_map,
      List.length_reverse, Nat.ofDigits_singleton, Nat.mul_zero, Nat.zero_add, Nat.add_comm]
    rfl

/-- The digits are the characters from `0` to `9`. -/
theorem isDigit_iff {c : Char} : c.isDigit = true ↔ '0' ≤ c ∧ c ≤ '9' := by
  simp [Char.isDigit, Char.le_def]

/-- **A row of digits is read as what it denotes.** -/
theorem nat?_eq_some_iff : nat? cs = some n ↔ Denote cs n := by
  have hdigits : (!cs.isEmpty && cs.all Char.isDigit) = true ↔
      cs ≠ [] ∧ ∀ c ∈ cs, '0' ≤ c ∧ c ≤ '9' := by
    simp [isDigit_iff]
  unfold nat?
  rw [ofDigitChars_eq_ofDigits]
  constructor
  · intro h
    split at h
    · next hcs =>
      obtain ⟨hne, hascii⟩ := hdigits.1 hcs
      exact ⟨hne, hascii, Option.some.inj h⟩
    · cases h
  · rintro ⟨hne, hascii, rfl⟩
    rw [if_pos (hdigits.2 ⟨hne, hascii⟩)]

/-- A number does not begin with a sign. -/
theorem Denote.ne_cons {c : Char} (h : Denote digits n) (hc : ¬ ('0' ≤ c ∧ c ≤ '9')) :
    digits ≠ c :: cs := by
  rintro rfl
  exact hc (h.ascii c List.mem_cons_self)

/-! ## Signs -/

/-- Behind one of these signs or none there are digits, and the whole has the value `v`. -/
inductive Signed (signs : List Char) : List Char → Int → Prop
  | bare {digits : List Char} {n : Nat} (h : Denote digits n) : Signed signs digits n
  | plus {digits : List Char} {n : Nat} (hsign : '+' ∈ signs) (h : Denote digits n) :
    Signed signs ('+' :: digits) n
  | minus {digits : List Char} {n : Nat} (hsign : '-' ∈ signs) (h : Denote digits n) :
    Signed signs ('-' :: digits) (-n)

/-- A number is read first, and then becomes an integer with its sign. -/
theorem map_lift_eq_some_iff {read : Option Nat} {sign : Int → Int} :
    (do let n ← read; pure (n : Int) : Option Int).map sign = some v ↔
      ∃ n : Nat, read = some n ∧ sign n = v := by
  cases read <;> simp

/-- **What may have a minus sign.** -/
theorem negatable?_eq_some_iff : negatable? cs = some v ↔ Signed ['-'] cs v := by
  constructor
  · intro h
    unfold negatable? at h
    split at h <;> obtain ⟨n, hn, rfl⟩ := map_lift_eq_some_iff.1 h
    · exact .minus List.mem_cons_self (nat?_eq_some_iff.1 hn)
    · exact .bare (nat?_eq_some_iff.1 hn)
  · intro h
    cases h with
    | bare h =>
      unfold negatable?
      split
      · exact absurd rfl (h.ne_cons (by decide))
      · exact map_lift_eq_some_iff.2 ⟨_, nat?_eq_some_iff.2 h, rfl⟩
    | plus hsign => exact absurd hsign (by decide)
    | minus _ h => exact map_lift_eq_some_iff.2 ⟨_, nat?_eq_some_iff.2 h, rfl⟩

/-- What may have a minus sign only may have either sign. -/
theorem Signed.of_negatable (h : Signed ['-'] cs v) : Signed ['+', '-'] cs v := by
  cases h with
  | bare h => exact .bare h
  | plus hsign => exact absurd hsign (by decide)
  | minus _ h => exact .minus (by decide) h

/-- **What may have either sign.** -/
theorem signed?_eq_some_iff : signed? cs = some v ↔ Signed ['+', '-'] cs v := by
  constructor
  · intro h
    unfold signed? at h
    split at h
    · obtain ⟨n, hn, rfl⟩ := map_lift_eq_some_iff.1 h
      exact .plus List.mem_cons_self (nat?_eq_some_iff.1 hn)
    · exact (negatable?_eq_some_iff.1 h).of_negatable
  · intro h
    cases h with
    | bare h =>
      unfold signed?
      split
      · exact absurd rfl (h.ne_cons (by decide))
      · exact negatable?_eq_some_iff.2 (.bare h)
    | plus _ h => exact map_lift_eq_some_iff.2 ⟨_, nat?_eq_some_iff.2 h, rfl⟩
    | minus _ h => exact negatable?_eq_some_iff.2 (.minus List.mem_cons_self h)

/-! ## Cells -/

/-- The text is `stem`, and behind it a number with one of these signs or none, which lies in the
range of cells and is `c`. -/
def Spells (stem : String) (signs : List Char) (text : String) (c : Cell) : Prop :=
  ∃ (number : String) (v : Int), text = stem ++ number ∧ Signed signs number.toList v ∧
    -2 ^ 63 ≤ v ∧ v ≤ 2 ^ 63 - 1 ∧ c.toInt = v

variable {stem text : String} {signs : List Char} {c : Cell}

/-- Every cell lies in the range. -/
theorem spells_iff :
    Spells stem signs text c ↔ ∃ number, text = stem ++ number ∧ Signed signs number.toList c.toInt := by
  constructor
  · rintro ⟨number, v, htext, hnumber, _, _, rfl⟩
    exact ⟨number, htext, hnumber⟩
  · rintro ⟨number, htext, hnumber⟩
    exact ⟨number, c.toInt, htext, hnumber, c.le_toInt, Int.le_sub_one_of_lt c.toInt_lt, rfl⟩

/-- **Literals** are numbers with one sign of either kind or none. -/
theorem literal?_eq_some_iff : literal? text = some c ↔ Spells "" ['+', '-'] text c := by
  unfold literal?
  rw [spells_iff, Option.bind_eq_some_iff]
  simp only [signed?_eq_some_iff, Cell.ofInt?_eq_some_iff, String.empty_append]
  constructor
  · rintro ⟨v, hv, rfl⟩
    exact ⟨text, rfl, hv⟩
  · rintro ⟨number, rfl, hnumber⟩
    exact ⟨_, hnumber, rfl⟩

/-- A number that is written out denotes itself. -/
theorem denote_repr (k : Nat) : Denote k.repr.toList k := by
  rw [Nat.repr_eq_ofList_toDigits, String.toList_ofList]
  refine ⟨Nat.toDigits_ne_nil, fun d hd => ?_, ?_⟩
  · exact isDigit_iff.1 (Nat.isDigit_of_mem_toDigits (by decide) (by decide) hd)
  · rw [← ofDigitChars_eq_ofDigits, Nat.ofDigitChars_ten_toDigits]

/-- A cell that is written out is a number with a minus sign or none. -/
theorem signed_render (c : Cell) : Signed ['-'] c.render.toList c.toInt := by
  unfold Cell.render
  rw [Int.repr_eq_if]
  split
  · next hpos =>
    have h : Signed ['-'] _ _ := .bare (denote_repr c.toInt.toNat)
    rwa [Int.toNat_of_nonneg hpos] at h
  · next hneg =>
    have h : Signed ['-'] _ _ := .minus List.mem_cons_self (denote_repr (-c.toInt).toNat)
    rw [Int.toNat_of_nonneg (by omega), Int.neg_neg] at h
    rw [String.toList_append]
    exact h

/-- A cell that is written out is read back. -/
theorem literal?_render (c : Cell) : literal? c.render = some c :=
  literal?_eq_some_iff.2 (spells_iff.2 ⟨c.render, String.empty_append.symm,
    (signed_render c).of_negatable⟩)

end Text.Decimal

/-! ## Symbols -/

namespace Symbol

open Text.Decimal

variable {stem text other : String} {c : Cell}

/-- A branch is its verb with an offset right behind it. -/
theorem offsetAfter?_eq_some_iff :
    offsetAfter? stem.toList text.toList = some c ↔ Spells stem ['-'] text c := by
  unfold offsetAfter? offset?
  rw [spells_iff, Option.bind_eq_some_iff]
  simp only [Text.behind?_eq_some_iff, Option.bind_eq_some_iff, negatable?_eq_some_iff,
    Cell.ofInt?_eq_some_iff]
  constructor
  · rintro ⟨number, htext, v, hv, rfl⟩
    refine ⟨String.ofList number, ?_, by rwa [String.toList_ofList]⟩
    rw [← String.toList_inj, htext, String.toList_append, String.toList_ofList]
  · rintro ⟨number, rfl, hnumber⟩
    exact ⟨number.toList, String.toList_append, _, hnumber, rfl⟩

/-- What a text stands for. -/
inductive Reads (text : String) : Symbol → Prop
  | ifMark (h : text = "IF") : Reads text .ifMark
  | elseMark (h : text = "ELSE") : Reads text .elseMark
  | endMark (h : text = "END") : Reads text .endMark
  | branch {offset : Cell} (h : Spells "BRANCH" ['-'] text offset) : Reads text (.branch offset)
  | zbranch {offset : Cell} (h : Spells "ZBRANCH" ['-'] text offset) : Reads text (.zbranch offset)
  | word (hif : text ≠ "IF") (helse : text ≠ "ELSE") (hend : text ≠ "END")
    (hbranch : ∀ offset, ¬ Spells "BRANCH" ['-'] text offset)
    (hzbranch : ∀ offset, ¬ Spells "ZBRANCH" ['-'] text offset) : Reads text (.word text)

/-- A text is no branch exactly if it spells the stem with no offset. -/
theorem offsetAfter?_eq_none_iff :
    offsetAfter? stem.toList text.toList = none ↔ ∀ c, ¬ Spells stem ['-'] text c := by
  simp only [Option.eq_none_iff_forall_ne_some, ne_eq, offsetAfter?_eq_some_iff]

/-- A text is read in some way. -/
theorem reads_ofText (text : String) : Reads text (ofText text) := by
  unfold ofText
  split
  · next h => exact .ifMark h
  · next hif =>
    split
    · next h => exact .elseMark h
    · next helse =>
      split
      · next h => exact .endMark h
      · next hend =>
        split
        · next h => exact .zbranch (offsetAfter?_eq_some_iff.1 h)
        · next hzbranch =>
          split
          · next h => exact .branch (offsetAfter?_eq_some_iff.1 h)
          · next hbranch =>
            exact .word hif helse hend (offsetAfter?_eq_none_iff.1 hbranch)
              (offsetAfter?_eq_none_iff.1 hzbranch)

/-- A text with an offset behind one beginning is no text without that beginning. -/
theorem ne_of_spells (h : Spells stem ['-'] text c)
    (hother : Text.behind? stem.toList other.toList = none) : text ≠ other := by
  rintro rfl
  obtain ⟨number, hnumber, _⟩ := Option.bind_eq_some_iff.1 (offsetAfter?_eq_some_iff.2 h)
  rw [hother] at hnumber
  cases hnumber

/-- A branch that is always taken does not have the verb of the other kind. -/
theorem not_spells_zbranch (h : Spells "BRANCH" ['-'] text c) (c' : Cell) :
    ¬ Spells "ZBRANCH" ['-'] text c' := by
  obtain ⟨number, rfl, _⟩ := spells_iff.1 h
  intro h'
  obtain ⟨number', hnumber', _⟩ := spells_iff.1 h'
  have hlists := congrArg String.toList hnumber'
  rw [String.toList_append, String.toList_append] at hlists
  have hheads := congrArg List.head? hlists
  cases hheads

/-- **A text is read in one way.** -/
theorem ofText_eq_iff {s : Symbol} : ofText text = s ↔ Reads text s := by
  constructor
  · rintro rfl
    exact reads_ofText text
  · intro h
    cases h with
    | ifMark h | elseMark h | endMark h =>
      subst h
      rfl
    | branch h =>
      have hzbranch := offsetAfter?_eq_none_iff.2 (not_spells_zbranch h)
      unfold ofText
      rw [if_neg (ne_of_spells h rfl), if_neg (ne_of_spells h rfl), if_neg (ne_of_spells h rfl),
        hzbranch, offsetAfter?_eq_some_iff.2 h]
    | zbranch h =>
      unfold ofText
      rw [if_neg (ne_of_spells h rfl), if_neg (ne_of_spells h rfl), if_neg (ne_of_spells h rfl),
        offsetAfter?_eq_some_iff.2 h]
    | word hif helse hend hbranch hzbranch =>
      unfold ofText
      rw [if_neg hif, if_neg helse, if_neg hend, offsetAfter?_eq_none_iff.2 hzbranch,
        offsetAfter?_eq_none_iff.2 hbranch]

/-- A text that stands for a word stands for itself. -/
theorem eq_of_ofText_eq_word (h : ofText text = .word other) : text = other := by
  have hreads := ofText_eq_iff.1 h
  cases hreads
  rfl

/-- The marks and the verbs begin with one of these letters, so what begins otherwise is a word. -/
theorem ofText_eq_word (h : ∀ first, text.toList.head? = some first → first ∉ ['I', 'E', 'B', 'Z']) :
    ofText text = .word text := by
  have hmark : ∀ (mark : String) (first : Char), mark.toList.head? = some first →
      first ∈ ['I', 'E', 'B', 'Z'] → text ≠ mark := by
    rintro mark first hhead hmem rfl
    exact h first hhead hmem
  have hverb : ∀ (verb : String) (first : Char) (offset : Cell), verb.toList.head? = some first →
      first ∈ ['I', 'E', 'B', 'Z'] → ¬ Spells verb ['-'] text offset := by
    rintro verb first offset hhead hmem ⟨number, _, rfl, _⟩
    refine h first ?_ hmem
    rw [String.toList_append, List.head?_append, hhead]
    rfl
  exact ofText_eq_iff.2 (.word (hmark "IF" 'I' rfl (by decide)) (hmark "ELSE" 'E' rfl (by decide))
    (hmark "END" 'E' rfl (by decide)) (fun offset => hverb "BRANCH" 'B' offset rfl (by decide))
    fun offset => hverb "ZBRANCH" 'Z' offset rfl (by decide))

/-- A number that is written out is a word. -/
theorem ofText_render (c : Cell) : ofText c.render = .word c.render := by
  refine ofText_eq_word fun first hhead hmem => ?_
  rcases Cell.eq_or_isDigit_of_mem_render (List.mem_of_head? hhead) with rfl | hdigit
  · exact absurd hmem (by decide)
  · have hletters : (['I', 'E', 'B', 'Z'].all fun letter => !letter.isDigit) = true := rfl
    have hletter := List.all_eq_true.1 hletters first hmem
    rw [hdigit] at hletter
    exact absurd hletter Bool.false_ne_true

/-- A branch that is written out is read back. -/
theorem ofText_branch_render (c : Cell) : ofText ("BRANCH" ++ c.render) = .branch c :=
  ofText_eq_iff.2 (.branch (spells_iff.2 ⟨_, rfl, signed_render c⟩))

/-- A conditional branch that is written out is read back. -/
theorem ofText_zbranch_render (c : Cell) : ofText ("ZBRANCH" ++ c.render) = .zbranch c :=
  ofText_eq_iff.2 (.zbranch (spells_iff.2 ⟨_, rfl, signed_render c⟩))

end Symbol

/-! ## The theorem -/

open Text.Decimal in
/-- **The grammar of tokens.**  A text is a literal if it is a number with one sign or none in the
range of cells, and then it is that cell.  It stands for exactly one symbol: for one of the three
marks, for a branch of either kind if its offset is written without a plus sign and lies in the
range, and for a word in every other case.  Every cell that is written out is read back, alone and
behind the verb of a branch. -/
theorem token_grammar :
    (∀ text c, literal? text = some c ↔ Spells "" ['+', '-'] text c) ∧
      (∀ text s, Symbol.ofText text = s ↔ Symbol.Reads text s) ∧
      ∀ c : Cell, literal? c.render = some c ∧
        Symbol.ofText ("BRANCH" ++ c.render) = .branch c ∧
        Symbol.ofText ("ZBRANCH" ++ c.render) = .zbranch c :=
  ⟨fun _ _ => literal?_eq_some_iff, fun _ _ => Symbol.ofText_eq_iff, fun c =>
    ⟨literal?_render c, Symbol.ofText_branch_render c, Symbol.ofText_zbranch_render c⟩⟩

/-- The least cell is read, with zeros in front too, and the least number above the cells is not;
behind a verb it makes a word. -/
example : Text.Decimal.literal? "-0009223372036854775808" = some Int64.minValue ∧
    Text.Decimal.literal? "9223372036854775808" = none ∧
    Symbol.ofText "ZBRANCH9223372036854775808" = .word "ZBRANCH9223372036854775808" := by
  decide

end Threaded
