import Threaded.Listing
import Threaded.Proofs.Copies
import Threaded.Proofs.Ledger
import Threaded.Proofs.Lexing
import Threaded.Proofs.Slots
import Threaded.Proofs.Spelling

/-!
# A listing can be assembled again

The listing of a word tells all of it.  The text of a slot gives back a token (`Listing.token`): the
number of a literal, the name of anything that has one, and the verb of a branch with its offset.
On any later machine a line of these tokens is assembled into a copy of the word, if the names still
lead to what stands in the slots and no number has become a name.  So IF, ELSE and END are another
way to write branches: none of the tokens is one of these marks, and an END is a NOP.

A branch is shown with its target (`Listing.target?`), and that is where a run goes on when the
branch is taken.
-/

namespace Threaded

/-! ## What the text of a slot says -/

/-- There is no blank and no plus sign in a number. -/
theorem Cell.ne_of_mem_render {n : Cell} {c : Char} (h : c ∈ n.render.toList) : c ≠ ' ' ∧ c ≠ '+' := by
  constructor <;> rintro rfl <;>
    rcases Cell.eq_or_isDigit_of_mem_render h with h | h <;> exact absurd h (by decide)

namespace Listing

/-- The offset that stands first in a text, without a plus sign. -/
def offset (text : String) : String :=
  String.ofList ((text.toList.takeWhile (· ≠ ' ')).dropWhile (· = '+'))

/-- The token that the text of a slot stands for. -/
def token (text : String) : String :=
  let kind := String.ofList (text.toList.take 8)
  let rest := String.ofList (text.toList.drop 8)
  if kind = "branch  " then "BRANCH" ++ offset rest
  else if kind = "zbranch " then "ZBRANCH" ++ offset rest
  else rest

/-- The target that a branch is shown with: the number behind the last blank. -/
def target? (text : String) : Option Nat :=
  Text.Decimal.nat? (text.toList.reverse.takeWhile (· ≠ ' ')).reverse

/-- The page of a word: its texts, numbered from `ip` on. -/
def page : Nat → List String → String
  | _, [] => ""
  | ip, text :: texts => padLeft 4 ip.repr ++ " " ++ text ++ "\n" ++ page (ip + 1) texts

/-- A kind takes eight characters. -/
theorem token_append {kind : String} (hkind : kind.toList.length = 8) (rest : String) :
    token (kind ++ rest) =
      if kind = "branch  " then "BRANCH" ++ offset rest
      else if kind = "zbranch " then "ZBRANCH" ++ offset rest
      else rest := by
  have htake : (kind ++ rest).toList.take 8 = kind.toList := by
    rw [String.toList_append, ← hkind, List.take_left]
  have hdrop : (kind ++ rest).toList.drop 8 = rest.toList := by
    rw [String.toList_append, ← hkind, List.drop_left]
  unfold token
  simp only [htake, hdrop, String.ofList_toList]

/-- The offset of a branch is read up to the blank behind it, without its plus sign. -/
theorem offset_append (n : Cell) (rest : String) :
    offset (n.renderSigned ++ (" -> " ++ rest)) = n.render := by
  have hsigned : ∀ c ∈ n.renderSigned.toList, (decide (c ≠ ' ')) = true := by
    intro c hc
    unfold Cell.renderSigned at hc
    refine decide_eq_true ?_
    split at hc
    · exact (Cell.ne_of_mem_render hc).1
    · rw [String.toList_append, List.mem_append] at hc
      rcases hc with hc | hc
      · rintro rfl
        exact absurd hc (by decide)
      · exact (Cell.ne_of_mem_render hc).1
  have hbare : n.render.toList.dropWhile (· = '+') = n.render.toList :=
    List.dropWhile_eq_self_iff.2 fun hpos hplus =>
      (Cell.ne_of_mem_render (List.getElem_mem hpos)).2 (of_decide_eq_true hplus)
  have htake : (n.renderSigned ++ (" -> " ++ rest)).toList.takeWhile (· ≠ ' ') =
      n.renderSigned.toList := by
    rw [String.toList_append, String.toList_append, List.takeWhile_append_of_pos hsigned]
    exact List.append_nil _
  unfold offset
  rw [htake]
  unfold Cell.renderSigned
  split
  · rw [hbare, String.ofList_toList]
  · have hplus : ("+" ++ n.render).toList.dropWhile (· = '+') = n.render.toList := by
      rw [String.toList_append]
      exact hbare
    rw [hplus, String.ofList_toList]

/-- What stands behind the arrow is read as the target. -/
theorem target?_append (front : String) (t : Nat) :
    target? (front ++ " -> " ++ t.repr) = some t := by
  have hdigits : ∀ c ∈ t.repr.toList.reverse, (decide (c ≠ ' ')) = true := by
    intro c hc
    have hascii := (Text.Decimal.denote_repr t).ascii c (List.mem_reverse.1 hc)
    refine decide_eq_true ?_
    rintro rfl
    exact absurd hascii.1 (by decide)
  have hreverse : (front ++ " -> " ++ t.repr).toList.reverse =
      t.repr.toList.reverse ++ ' ' :: (front ++ " ->").toList.reverse := by
    simp
  have htake : (front ++ " -> " ++ t.repr).toList.reverse.takeWhile (· ≠ ' ') =
      t.repr.toList.reverse := by
    rw [hreverse, List.takeWhile_append_of_pos hdigits]
    exact List.append_nil _
  unfold target?
  rw [htake, List.reverse_reverse, Text.Decimal.nat?_eq_some_iff]
  exact Text.Decimal.denote_repr t

end Listing

namespace Dict

/-- The texts of the slots from `ip` on. -/
def textsFrom (d : Dict) : Nat → List Ref → Except Error (List String)
  | _, [] => .ok []
  | ip, r :: rs => do
    let text ← d.list ip r
    let below ← d.textsFrom (ip + 1) rs
    return text :: below

variable {d : Dict} {r : Ref} {e : Entry} {ip : Nat}

/-- An entry that is there is listed as it is. -/
theorem list_of_get? (he : d.get? r = some e) : d.list ip r = .ok (e.list ip) := by
  rw [list, entry, he]
  rfl

/-- A listing is the page of its texts. -/
theorem listFrom_eq (d : Dict) : (rs : List Ref) → (ip : Nat) →
    d.listFrom ip rs = (d.textsFrom ip rs).map (Listing.page ip)
  | [], _ => rfl
  | r :: rs, ip => by
    have ih := listFrom_eq d rs (ip + 1)
    rw [listFrom, textsFrom, ih]
    cases d.list ip r with
    | error e => rfl
    | ok text => cases d.textsFrom (ip + 1) rs <;> rfl

/-- **A word whose references are good can be listed**, and each slot has the text of its entry. -/
theorem exists_textsFrom : (rs : List Ref) → (ip : Nat) → (∀ r ∈ rs, ∃ e, d.get? r = some e) →
    ∃ texts, d.textsFrom ip rs = .ok texts ∧ texts.length = rs.length ∧
      ∀ i r e, rs[i]? = some r → d.get? r = some e → texts[i]? = some (e.list (ip + i))
  | [], _, _ => ⟨[], rfl, rfl, fun _ _ _ h => by cases h⟩
  | r :: rs, ip, h => by
    obtain ⟨e, he⟩ := h r List.mem_cons_self
    obtain ⟨texts, htexts, hlen, hslots⟩ :=
      exists_textsFrom rs (ip + 1) fun q hq => h q (List.mem_cons_of_mem _ hq)
    refine ⟨e.list ip :: texts, ?_, by simp [hlen], ?_⟩
    · rw [textsFrom, list_of_get? he, htexts]
      rfl
    · intro i q e' hq he'
      cases i with
      | zero =>
        obtain rfl := Option.some.inj hq
        obtain rfl : e = e' := Option.some.inj (he.symm.trans he')
        rfl
      | succ i =>
        have hbelow := hslots i q e' hq he'
        rwa [Nat.add_assoc, Nat.add_comm 1 i] at hbelow

/-- What has been listed is listed so ever after. -/
theorem Extends.textsFrom_eq_ok {d' : Dict} (h : d.Extends d') : (rs : List Ref) → (ip : Nat) →
    {texts : List String} → d.textsFrom ip rs = .ok texts → d'.textsFrom ip rs = .ok texts
  | [], _, _, htexts => htexts
  | r :: rs, ip, texts, htexts => by
    rw [textsFrom] at htexts ⊢
    cases he : d.get? r with
    | none =>
      rw [list, entry, he] at htexts
      cases htexts
    | some e =>
      rw [list_of_get? he] at htexts
      rw [list_of_get? (h.get? he)]
      cases hbelow : d.textsFrom (ip + 1) rs with
      | error e =>
        rw [hbelow] at htexts
        cases htexts
      | ok below =>
        rw [hbelow] at htexts
        rw [h.textsFrom_eq_ok rs (ip + 1) hbelow]
        exact htexts

end Dict

namespace Entry

/-- How an entry is written in a line. -/
def token : Entry → String
  | literal value => value.render
  | primitive name _ => name
  | compound w => w.name
  | branch offset => "BRANCH" ++ offset.render
  | zbranch offset => "ZBRANCH" ++ offset.render

/-- **The text of a slot gives the token of its entry.** -/
theorem token_list (ip : Nat) (e : Entry) : Listing.token (e.list ip) = e.token := by
  cases e with
  | literal value =>
    rw [list, Listing.token_append rfl, if_neg (by decide), if_neg (by decide), token]
  | primitive name action =>
    rw [list, Listing.token_append rfl, if_neg (by decide), if_neg (by decide), token]
  | compound w =>
    rw [list, Listing.token_append rfl, if_neg (by decide), if_neg (by decide), token]
  | branch n =>
    have hlist : (branch n).list ip =
        "branch  " ++ (n.renderSigned ++ (" -> " ++ (Jump.dest ip n).render)) := by
      rw [list, listBranch, String.append_assoc, String.append_assoc]
      rfl
    rw [hlist, Listing.token_append rfl, if_pos rfl, Listing.offset_append, token]
  | zbranch n =>
    have hlist : (zbranch n).list ip =
        "zbranch " ++ (n.renderSigned ++ (" -> " ++ (Jump.dest ip n).render)) := by
      rw [list, listBranch, String.append_assoc, String.append_assoc]
      rfl
    rw [hlist, Listing.token_append rfl, if_neg (by decide), if_pos rfl, Listing.offset_append, token]

/-- A branch is shown with the target to which it is followed. -/
theorem target?_list {e : Entry} {ip len t : Nat} {offset : Cell} (ho : e.offset? = some offset)
    (ht : Jump.target ip offset len = .ok t) :
    Listing.target? (e.list ip) = some t ∧ t ≤ len := by
  have hdest : (Jump.dest ip offset).render = t.repr ∧ t ≤ len := by
    unfold Jump.target at ht
    dsimp only at ht
    split at ht
    · next hinside =>
      obtain ⟨n, hn⟩ := Int.eq_ofNat_of_zero_le hinside.1
      rw [hn] at ht hinside
      obtain rfl : n = t := Except.ok.inj ht
      refine ⟨?_, Int.ofNat_le.1 hinside.2⟩
      rw [Cell.render, hn]
      rfl
    · cases ht
  have hlist : ∃ verb, e.list ip = listBranch verb ip offset := by
    cases e with
    | branch => exact ⟨"branch ", by rw [list, Option.some.inj ho]⟩
    | zbranch => exact ⟨"zbranch", by rw [list, Option.some.inj ho]⟩
    | literal | primitive | compound => cases ho
  obtain ⟨verb, hlist⟩ := hlist
  refine ⟨?_, hdest.2⟩
  rw [hlist, listBranch, hdest.1]
  exact Listing.target?_append _ t

/-- On the first machine the branch is taken, and that leaves the second. -/
inductive Taken : Entry → Machine → Machine → Prop
  | branch (offset : Cell) (m : Machine) : Taken (.branch offset) m m
  | zbranch (offset : Cell) {m m' : Machine} (h : m.perform Bench.pop = (.ok 0, m')) :
    Taken (.zbranch offset) m m'

/-- **A branch that is taken goes to its target**, in a frame of any depth. -/
theorem Taken.step {e : Entry} {m m' : Machine} (h : e.Taken m m') {body : Array Ref}
    {k t : Nat} {r : Ref} {offset : Cell} (hr : body[k]? = some r) (he : m.dict.get? r = some e)
    (ho : e.offset? = some offset) (ht : Jump.target k offset body.size = .ok t) (depth : Nat)
    (rest : List Frame) :
    Thread.step ⟨m, .code body k depth :: rest⟩ = .next ⟨m', .code body t depth :: rest⟩ := by
  have hentry : m.dict.entry r = .ok e := by
    unfold Dict.entry
    rw [he]
  have hjump : Thread.jump body k depth offset = .ok [.code body t depth] := by
    unfold Thread.jump
    rw [ht]
    rfl
  unfold Thread.step
  simp only [hr, hentry]
  cases h with
  | branch =>
    obtain rfl := Option.some.inj ho
    rw [Thread.enter, hjump]
    rfl
  | zbranch _ hpop =>
    obtain rfl := Option.some.inj ho
    rw [Thread.enter, hpop]
    simp only [if_true, hjump]
    rfl

end Entry

/-! ## What the tokens are assembled into -/

namespace Entry

/-- What the token of an entry stands for. -/
def symbol : Entry → Symbol
  | literal value => .word value.render
  | primitive name _ => .word name
  | compound w => .word w.name
  | branch offset => .branch offset
  | zbranch offset => .zbranch offset

/-- If the entry has a name, that is a token which stands for a word. -/
def Readable (e : Entry) : Prop :=
  ∀ name, e.name? = some name → name ≠ "" ∧ (∀ c ∈ name.toList, isSeparator c = false) ∧
    Symbol.ofText name = .word name

/-- In this dictionary the token of the entry leads to the reference, if it is a name, and
nowhere, if it is a number. -/
structure Meant (d : Dict) (r : Ref) (e : Entry) : Prop where
  name : ∀ name, e.name? = some name → d.lookup name = some r
  number : ∀ n, e = .literal n → d.lookup n.render = none

variable {e : Entry} {d : Dict} {r next : Ref}

/-- The token of an entry is read as its symbol. -/
theorem ofText_token (h : e.Readable) : Symbol.ofText e.token = e.symbol := by
  cases e with
  | literal value => exact Symbol.ofText_render value
  | primitive name action => exact (h name rfl).2.2
  | compound w => exact (h w.name rfl).2.2
  | branch offset => exact Symbol.ofText_branch_render offset
  | zbranch offset => exact Symbol.ofText_zbranch_render offset

/-- The token of an entry is one token of a line. -/
theorem token_unseparated (h : e.Readable) :
    e.token ≠ "" ∧ ∀ c ∈ e.token.toList, isSeparator c = false := by
  have hnumber : ∀ (n : Cell), ∀ c ∈ n.render.toList, isSeparator c = false := by
    intro n c hc
    rcases Cell.eq_or_isDigit_of_mem_render hc with rfl | hdigit
    · rfl
    · have hascii := Text.Decimal.isDigit_iff.1 hdigit
      refine Bool.or_eq_false_iff.2 ⟨decide_eq_false ?_, decide_eq_false ?_⟩ <;> rintro rfl <;>
        exact absurd hascii.1 (by decide)
  have hbranch : ∀ (verb : String) (n : Cell), verb ≠ "" →
      (verb.toList.all fun c => !isSeparator c) = true →
        verb ++ n.render ≠ "" ∧ ∀ c ∈ (verb ++ n.render).toList, isSeparator c = false := by
    intro verb n hne hverb
    refine ⟨fun hempty => hne (String.append_eq_empty_iff.1 hempty).1, fun c hc => ?_⟩
    rw [String.toList_append, List.mem_append] at hc
    refine hc.elim (fun hc => ?_) (hnumber n c)
    simpa using List.all_eq_true.1 hverb c hc
  cases e with
  | literal value =>
    refine ⟨fun hempty => ?_, hnumber value⟩
    have hread := Text.Decimal.literal?_render value
    rw [show value.render = "" from hempty] at hread
    cases hread
  | primitive name action => exact ⟨(h name rfl).1, (h name rfl).2.1⟩
  | compound w => exact ⟨(h w.name rfl).1, (h w.name rfl).2.1⟩
  | branch offset => exact hbranch "BRANCH" offset (by decide) rfl
  | zbranch offset => exact hbranch "ZBRANCH" offset (by decide) rfl

/-- A token that means its entry can be assembled. -/
theorem Meant.fault?_symbol (h : e.Meant d r) (before : List Symbol) :
    e.symbol.fault? d before = none := by
  cases e with
  | literal value =>
    simp [symbol, Symbol.fault?, Text.Decimal.literal?_render]
  | primitive name action => simp [symbol, Symbol.fault?, h.name name rfl]
  | compound w => simp [symbol, Symbol.fault?, h.name w.name rfl]
  | branch offset | zbranch offset => rfl

/-- No entry is read as an IF. -/
theorem symbol_ne_ifMark (e : Entry) : e.symbol ≠ .ifMark := by
  cases e <;> nofun

/-- A name is assembled into the reference that it means. -/
theorem Meant.ref_symbol (h : e.Meant d r) (hname : e.name? ≠ none) : e.symbol.ref d next = r := by
  obtain ⟨name, hname⟩ := Option.ne_none_iff_exists'.1 hname
  have hsymbol : e.symbol = .word name := by
    cases e <;> cases hname <;> rfl
  rw [hsymbol, Symbol.ref, h.name name hname, Option.getD_some]

/-- A number or a branch is registered again. -/
theorem Meant.fresh?_symbol (h : e.Meant d r) (hname : e.name? = none) (rest : List Symbol) :
    e.symbol.ref d next = next ∧ e.symbol.fresh? d rest = some e := by
  cases e with
  | literal value =>
    have hnone := h.number value rfl
    simp [symbol, Symbol.ref, Symbol.fresh?, hnone, Text.Decimal.literal?_render]
  | primitive | compound => cases hname
  | branch | zbranch => exact ⟨rfl, rfl⟩

end Entry

/-- Tokens none of which is at fault. -/
theorem Symbol.faultFrom_eq_none {d : Dict} : (symbols before : List Symbol) →
    (∀ s ∈ symbols, ∀ before, s.fault? d before = none) → faultFrom d before symbols = none
  | [], _, _ => rfl
  | s :: rest, before, h => by
    rw [faultFrom, h s List.mem_cons_self before, Option.none_or]
    exact faultFrom_eq_none rest _ fun q hq => h q (List.mem_cons_of_mem _ hq)

/-- Slot by slot, these symbols are those of the entries in a word, and they mean them. -/
structure Spelt (d d' : Dict) (body : Array Ref) (symbols : List Symbol) : Prop where
  length : symbols.length = body.size
  slot : ∀ (k : Nat) (r : Ref), body[k]? = some r → ∃ e, d'.get? r = some e ∧
    symbols[k]? = some e.symbol ∧ e.Meant d r

namespace Spelt

variable {d d' d₁ : Dict} {body body' : Array Ref} {symbols : List Symbol}

/-- Every symbol is that of an entry. -/
theorem exists_of_mem (h : Spelt d d' body symbols) {s : Symbol} (hs : s ∈ symbols) :
    ∃ (e : Entry) (r : Ref), s = e.symbol ∧ e.Meant d r := by
  obtain ⟨k, hk⟩ := List.mem_iff_getElem?.1 hs
  have hlt : k < body.size := by
    rw [← h.length]
    exact (List.getElem?_eq_some_iff.1 hk).1
  obtain ⟨e, _, hsymbol, hmeant⟩ := h.slot k _ (Array.getElem?_eq_getElem hlt)
  exact ⟨e, _, Option.some.inj (hk.symm.trans hsymbol), hmeant⟩

/-- **Symbols of the entries are assembled into a copy.** -/
theorem copies (h : Spelt d d' body symbols) (himage : Imaged d symbols body' d₁)
    (hgrows : d'.Extends d₁) : Copies d₁ body body' where
  size := by rw [himage.size_body, h.length]
  slot k r hr := by
    obtain ⟨e, he, hsymbol, hmeant⟩ := h.slot k r hr
    have hslot := himage.getElem?_body hsymbol
    by_cases hname : e.name? = none
    · obtain ⟨href, hfresh⟩ := hmeant.fresh?_symbol hname (symbols.drop (k + 1))
      rw [href] at hslot
      exact ⟨e, _, hgrows.get? he, hslot, himage.get?_fresh hsymbol hfresh,
        fun hne => absurd hname hne⟩
    · rw [hmeant.ref_symbol hname] at hslot
      exact ⟨e, r, hgrows.get? he, hslot, hgrows.get? he, fun _ => rfl⟩

end Spelt

/-! ## The slots of a line -/

/-- **What has a name and stands in a slot of a line** can be written in a line: it is what a token
leads to, or the NOP of an END. -/
theorem Imaged.readable {d d' : Dict} {line : String} {body : Array Ref}
    (h : Imaged d (lineSymbols line) body d')
    (hnop : d.get? nop = some (.primitive "NOP" .nop)) {k : Nat} {r : Ref} {e : Entry}
    (hr : body[k]? = some r) (he : d'.get? r = some e) : e.Readable := by
  intro name hname
  have hold : d.get? r = some e := h.kept.get?_of_named he (hname ▸ Option.some_ne_none _)
  have hlt : r < d.size := Dict.lt_size_of_get? hold
  have hk : k < (lineSymbols line).length := by
    rw [← h.size_body]
    exact (Array.getElem?_eq_some_iff.1 hr).1
  have hs : (lineSymbols line)[k]? = some (lineSymbols line)[k] := List.getElem?_eq_getElem hk
  have hslot := h.getElem?_body hs
  rw [hr] at hslot
  have hnew : r ≠ d.size + Symbol.newBefore d (lineSymbols line) k :=
    Nat.ne_of_lt (Nat.lt_of_lt_of_le hlt (Nat.le_add_right _ _))
  generalize (lineSymbols line)[k] = s at hs hslot
  cases s with
  | endMark =>
    obtain rfl : r = nop := Option.some.inj hslot
    obtain rfl : e = .primitive "NOP" .nop := Option.some.inj (hold.symm.trans hnop)
    obtain rfl := Option.some.inj hname
    refine ⟨by decide, fun c hc => ?_, by decide⟩
    have hall : ("NOP".toList.all fun c => !isSeparator c) = true := rfl
    simpa using List.all_eq_true.1 hall c hc
  | word text =>
    obtain ⟨text', htext', hword⟩ := List.mem_map.1 (List.mem_of_getElem? hs)
    obtain rfl := Symbol.eq_of_ofText_eq_word hword
    cases hl : d.lookup text' with
    | none =>
      rw [Symbol.ref, hl, Option.getD_none] at hslot
      exact absurd (Option.some.inj hslot) hnew
    | some q =>
      rw [Symbol.ref, hl, Option.getD_some] at hslot
      obtain rfl := Option.some.inj hslot
      obtain ⟨e', he', hname', _⟩ := Dict.get?_of_lookup hl
      obtain rfl : e = e' := Option.some.inj (hold.symm.trans he')
      obtain rfl := Option.some.inj (hname.symm.trans hname')
      obtain ⟨hne, hsep⟩ := unseparated_of_mem_lineTexts htext'
      exact ⟨hne, hsep, hword⟩
  | ifMark | elseMark | branch | zbranch => exact absurd (Option.some.inj hslot) hnew

/-! ## The theorem -/

namespace Machine

/-- The tokens of these texts still mean what stands in the slots of the word: they fit, each name
leads to its slot, and no number has become a name. -/
structure Rebuildable (m : Machine) (d : Dict) (w : Word) (texts : List String) : Prop where
  fits : ∀ text ∈ texts, (Listing.token text).utf8ByteSize ≤ m.limits.nameLen
  names : ∀ (k : Nat) (r : Ref) (name : String), w.body[k]? = some r →
    d.nameOf? r = some name → m.dict.lookup name = some r
  numbers : ∀ (k : Nat) (r : Ref) (n : Cell), w.body[k]? = some r →
    d.get? r = some (.literal n) → m.dict.lookup n.render = none

/-- These are the texts of the word, and it can be assembled from them again. -/
structure Relists (m : Machine) (w : Word) (texts : List String) : Prop where
  /-- The word can be listed, and at any later time too: each slot has the text of its entry. -/
  listed : ∀ d, m.dict.Extends d → d.listWord w = .ok (Listing.page 0 texts)
  length : texts.length = w.body.size
  slot : ∀ (k : Nat) (r : Ref), w.body[k]? = some r →
    ∃ text, texts[k]? = some text ∧ m.dict.list k r = .ok text
  /-- A branch that is taken goes to the target that is shown, a slot or the end of the word. -/
  branch : ∀ (k : Nat) (r : Ref) (e : Entry) (text : String), w.body[k]? = some r →
    m.dict.get? r = some e → e.offset?.isSome → texts[k]? = some text →
      ∃ t, Listing.target? text = some t ∧ t ≤ w.body.size ∧
        ∀ m₁ m₂ depth rest, m.dict.Extends m₁.dict → e.Taken m₁ m₂ →
          Thread.step ⟨m₁, .code w.body k depth :: rest⟩ =
            .next ⟨m₂, .code w.body t depth :: rest⟩
  /-- Wherever the tokens still mean the slots, they are assembled into a copy of the word, and it
  runs as the word does, from every bench. -/
  rebuilt : ∀ m₁ line, m.LeadsTo m₁ → Joined (texts.map Listing.token) line →
    m₁.Rebuildable m.dict w texts →
      ∃ w' m₂, m₁.compile line = (.ok (some w'), m₂) ∧ Copies m₂.dict w.body w'.body ∧
        ∀ bench fuel, run fuel { m₂ with bench } w' = run fuel { m₂ with bench } w

variable {allowed : Command → Prop} {m m' m₁ : Machine} {line : String} {w : Word}
  {texts : List String}

/-- A word that a line is compiled into has a slot. -/
theorem size_pos_of_compile (hc : m.compile line = (.ok (some w), m')) : 0 < w.body.size := by
  rw [(imaged_of_compile hc).size_body, List.length_pos_iff]
  rw [compile_eq] at hc
  split at hc
  · cases hc
  · split at hc
    · cases hc
    · assumption

/-- **Symbols of the entries of a word compile**, and to a copy of it. -/
theorem exists_compile_of_spelt {d : Dict} (hpos : 0 < w.body.size)
    (hcheck : Jump.check d w.body = .ok ()) (hgrows : d.Extends m.dict)
    (hfit : firstTooLong? m.limits.nameLen line = none)
    (hspelt : Spelt m.dict d w.body (lineSymbols line)) :
    ∃ w' m', m.compile line = (.ok (some w'), m') ∧ m.dict.Extends m'.dict ∧
      Copies m'.dict w.body w'.body := by
  have hf : Symbol.faultFrom m.dict [] (lineSymbols line) = none := by
    refine Symbol.faultFrom_eq_none _ _ fun s hs before => ?_
    obtain ⟨e, r, rfl, hmeant⟩ := hspelt.exists_of_mem hs
    exact hmeant.fault?_symbol before
  have hif : .ifMark ∉ lineSymbols line := by
    intro hs
    obtain ⟨e, _, hsymbol, _⟩ := hspelt.exists_of_mem hs
    exact e.symbol_ne_ifMark hsymbol.symm
  obtain ⟨a, ha, himage, hopen⟩ := imaged_of_faultFrom hf
  have hext : d.Extends a.dict := hgrows.trans himage.kept.toExtends
  have hcopies := hspelt.copies himage hext
  have hfinish : a.finish = .ok { body := a.code } := by
    unfold Assembly.finish
    rw [hopen hif, hcopies.check_eq_ok (hext.check_eq_ok hcheck)]
    rfl
  have hne : lineSymbols line ≠ [] := by
    rw [← List.length_pos_iff, hspelt.length]
    exact hpos
  refine ⟨{ body := a.code }, { m with dict := a.dict }, ?_, himage.kept.toExtends, hcopies⟩
  rw [compile_eq, hfit]
  simp only [if_neg hne, ha, hfinish]
  rfl

/-- **A word of a line can be assembled from its texts**, wherever they still mean its slots. -/
theorem rebuilt_of_compile (hnop : m.dict.get? nop = some (.primitive "NOP" .nop))
    (hc : m.compile line = (.ok (some w), m')) (hlen : texts.length = w.body.size)
    (htexts : ∀ (k : Nat) (r : Ref) (e : Entry), w.body[k]? = some r → m'.dict.get? r = some e →
      texts[k]? = some (e.list k))
    (hlater : m'.LeadsTo m₁) {line' : String} (hline : Joined (texts.map Listing.token) line')
    (hmeans : m₁.Rebuildable m'.dict w texts) :
    ∃ w' m₂, m₁.compile line' = (.ok (some w'), m₂) ∧ Copies m₂.dict w.body w'.body ∧
      ∀ bench fuel, run fuel { m₂ with bench } w' = run fuel { m₂ with bench } w := by
  have hcheck : Jump.check m'.dict w.body = .ok () := check_of_compile hc
  -- every slot has an entry, which can be written in a line and is written in the text
  have hslots : ∀ (k : Nat) (r : Ref), w.body[k]? = some r → ∃ e, m'.dict.get? r = some e ∧
      e.Readable ∧ (texts.map Listing.token)[k]? = some e.token := by
    intro k r hr
    obtain ⟨e, he, _⟩ := Jump.checkSlot_eq_ok_iff.1 (Jump.check_eq_ok_iff.1 hcheck k r hr)
    refine ⟨e, he, (imaged_of_compile hc).readable hnop hr he, ?_⟩
    rw [List.getElem?_map, htexts k r e hr he, Option.map_some, Entry.token_list]
  have hread : lineTexts line' = texts.map Listing.token := by
    refine lineTexts_of_joined hline fun text htext => ?_
    obtain ⟨k, hk⟩ := List.mem_iff_getElem?.1 htext
    have hlt := (List.getElem?_eq_some_iff.1 hk).1
    rw [List.length_map, hlen] at hlt
    obtain ⟨e, _, hreadable, htoken⟩ := hslots k _ (Array.getElem?_eq_getElem hlt)
    obtain rfl := Option.some.inj (hk.symm.trans htoken)
    exact Entry.token_unseparated hreadable
  have hspelt : Spelt m₁.dict m'.dict w.body (lineSymbols line') := by
    refine ⟨by rw [lineSymbols, hread, List.length_map, List.length_map, hlen], fun k r hr => ?_⟩
    obtain ⟨e, he, hreadable, htoken⟩ := hslots k r hr
    refine ⟨e, he, ?_, ⟨fun name hname => ?_, ?_⟩⟩
    · rw [lineSymbols, hread, List.getElem?_map, htoken, Option.map_some,
        Entry.ofText_token hreadable]
    · refine hmeans.names k r name hr ?_
      rw [Dict.nameOf?, he]
      exact hname
    · rintro n rfl
      exact hmeans.numbers k r n hr he
  have hfit : firstTooLong? m₁.limits.nameLen line' = none := by
    refine firstTooLong?_eq_none fun text htext => ?_
    rw [hread] at htext
    obtain ⟨text', htext', rfl⟩ := List.mem_map.1 htext
    exact hmeans.fits text' htext'
  obtain ⟨w', m₂, hc', hgrows, hcopies⟩ :=
    exists_compile_of_spelt (size_pos_of_compile hc) hcheck hlater.grows.dict hfit hspelt
  refine ⟨w', m₂, hc', hcopies, fun bench fuel => ?_⟩
  exact Copies.run_eq (m := { m₂ with bench }) hcopies
    ((hlater.grows.dict.trans hgrows).check_eq_ok hcheck) fuel

/-- **A listing is faithful.**  The word that a line is compiled into can be listed.  Each of its
branches is shown with the target to which it goes when it is taken, a slot or the end of the word.
And a line of the tokens that the texts stand for is compiled into a copy of the word, on any later
machine where they fit, the names lead to what stands in the slots, and no number has become a name:
the same references for what has a name, equal entries for the rest, and the same runs. -/
theorem listing_faithful (h : Reachable allowed m) (hc : m.compile line = (.ok (some w), m')) :
    ∃ texts, m'.dict.textsFrom 0 w.body.toList = .ok texts ∧ m'.Relists w texts := by
  have hcheck : Jump.check m'.dict w.body = .ok () := check_of_compile hc
  have hgood : ∀ (k : Nat) (r : Ref), w.body[k]? = some r → ∃ e, m'.dict.get? r = some e ∧
      ∀ offset, e.offset? = some offset → ∃ t, Jump.target k offset w.body.size = .ok t :=
    fun k r hr => Jump.checkSlot_eq_ok_iff.1 (Jump.check_eq_ok_iff.1 hcheck k r hr)
  obtain ⟨texts, htexts, hlen, hslots⟩ := Dict.exists_textsFrom w.body.toList 0 fun r hr => by
    obtain ⟨k, hk⟩ := List.mem_iff_getElem?.1 hr
    rw [Array.getElem?_toList] at hk
    obtain ⟨e, he, _⟩ := hgood k r hk
    exact ⟨e, he⟩
  simp only [Array.getElem?_toList, Nat.zero_add, Array.length_toList] at hlen hslots
  refine ⟨texts, htexts, ?_, hlen, ?_, ?_, ?_⟩
  · intro d hgrows
    rw [Dict.listWord, Dict.listFrom_eq, hgrows.textsFrom_eq_ok _ _ htexts]
    rfl
  · intro k r hr
    obtain ⟨e, he, _⟩ := hgood k r hr
    exact ⟨_, hslots k r e hr he, Dict.list_of_get? he⟩
  · intro k r e text hr he ho htext
    obtain rfl := Option.some.inj (htext.symm.trans (hslots k r e hr he))
    obtain ⟨offset, ho⟩ := Option.isSome_iff_exists.1 ho
    obtain ⟨e', he', hjump⟩ := hgood k r hr
    obtain rfl : e = e' := Option.some.inj (he.symm.trans he')
    obtain ⟨t, ht⟩ := hjump offset ho
    obtain ⟨hshown, hle⟩ := Entry.target?_list ho ht
    exact ⟨t, hshown, hle, fun m₁ m₂ depth rest hgrows htaken =>
      htaken.step hr (hgrows.get? he) ho ht depth rest⟩
  · intro m₁ line' hlater hline hmeans
    exact rebuilt_of_compile h.get?_nop hc hlen hslots hlater hline hmeans

/-- A conditional, and what it is without its marks: the branches go to the same slots, and a NOP
stands where the END was. -/
theorem listing_faithful_conditional :
    ∃ m w m' w' m₂, Reachable (fun _ => True) m ∧
      m.compile "5 IF SQ ELSE 0 END" = (.ok (some w), m') ∧
      m'.Relists w ["lit     5", "zbranch +2 -> 4", "call    SQ", "branch  +2 -> 6", "lit     0",
        "prim    NOP"] ∧
      m'.compile "5 ZBRANCH2 SQ BRANCH2 0 NOP" = (.ok (some w'), m₂) ∧
      Copies m₂.dict w.body w'.body := by
  have hreach : Reachable (fun _ => True) ((boot {}).load.2.define "SQ" "DUP MUL").2 :=
    .obey 0 (.load trivial {}) (c := .define "SQ" "DUP MUL") trivial rfl
  have hcompiles : ((boot {}).load.2.define "SQ" "DUP MUL").2.compile "5 IF SQ ELSE 0 END" =
      (.ok (some { body := #[18, 19, 17, 20, 21, 0] }), _) := rfl
  obtain ⟨texts, htexts, hrelists⟩ := listing_faithful hreach hcompiles
  obtain rfl : ["lit     5", "zbranch +2 -> 4", "call    SQ", "branch  +2 -> 6", "lit     0",
      "prim    NOP"] = texts := Except.ok.inj htexts
  have hjoined : Joined ["5", "ZBRANCH2", "SQ", "BRANCH2", "0", "NOP"]
      ("5" ++ " " ++ ("ZBRANCH2" ++ " " ++ ("SQ" ++ " " ++ ("BRANCH2" ++ " " ++
        ("0" ++ " " ++ "NOP"))))) := by
    iterate 5 refine .cons (by decide) (List.all_eq_true.1 rfl) ?_
    exact .single "NOP"
  obtain ⟨w', m₂, hc', hcopies, _⟩ := hrelists.rebuilt _ _ .refl hjoined
    { fits := by decide
      names := by
        intro k r name hr hname
        rcases k with _ | _ | _ | _ | _ | _ | k <;> cases hr <;> cases hname <;> rfl
      numbers := by
        intro k r n hr hn
        rcases k with _ | _ | _ | _ | _ | _ | k <;> cases hr <;> cases hn <;> rfl }
  exact ⟨_, _, _, w', m₂, hreach, hcompiles, hrelists, hc', hcopies⟩

end Machine

end Threaded
