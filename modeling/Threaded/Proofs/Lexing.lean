import Threaded.Proofs.Bytes
import Threaded.Proofs.Maximal

/-!
# What a lexer reads

A lexer hands out the maximal runs of the bytes of a line, one with each call, and after the last of
them nothing, however often it is asked (`lexer_reads`).  A run that is too long is the error of its
call, and the calls after it go on behind it.

Each call takes the first of the runs that are left (`Lexer.next_eq`), so the call `k` meets the run
`k` (`Lexer.next_after`).  The lexer goes over characters, and runs are counted in bytes; that the
two agree is `Line.byteRuns_encode`.

Cutting a line into tokens forgets the separators: the texts of the tokens, with any separators
between them, are cut into the same texts again (`lineTexts_of_joined`).
-/

namespace Threaded

open Text

/-! ## One call -/

namespace Lexer

variable {l : Lexer} {k : Nat}

/-- The runs that are left. -/
def runs (l : Lexer) : List (Run Char) :=
  Text.runs Char.utf8Size isSeparator l.pos l.rest

/-- What is answered by a run, or by there being none. -/
def answer (nameLen : Nat) : Option (Run Char) → Except Error (Option Token)
  | none => .ok none
  | some r => (Token.ofRun nameLen r).map some

/-- The lexer after so many calls. -/
def after (l : Lexer) (calls : Nat) : Lexer :=
  (fun l => l.next.2)^[calls] l

/-- **A call answers by the first run that is left**, and leaves the others. -/
theorem next_eq (l : Lexer) :
    l.next.1 = answer l.nameLen l.runs.head? ∧ l.next.2.nameLen = l.nameLen ∧
      l.next.2.runs = l.runs.tail := by
  obtain ⟨nameLen, pos, chars⟩ := l
  have hgap : ∀ c ∈ chars.takeWhile isSeparator, isSeparator c = true :=
    fun c hc => List.mem_takeWhile_imp hc
  have hfirst : ∀ c, (chars.dropWhile isSeparator).head? = some c → isSeparator c = false := by
    intro c hc
    have hhead := List.head?_dropWhile_not isSeparator chars
    rw [hc] at hhead
    exact hhead
  have hchars := (List.takeWhile_append_dropWhile (p := isSeparator) (l := chars)).symm
  unfold next runs size
  dsimp only
  generalize chars.takeWhile isSeparator = gap at hgap hchars ⊢
  generalize chars.dropWhile isSeparator = rest at hfirst hchars ⊢
  subst hchars
  rw [runs_separators_append _ gap hgap]
  generalize pos + extent Char.utf8Size gap = start
  cases rest with
  | nil => exact ⟨rfl, rfl, rfl⟩
  | cons c cs =>
    have hc : isSeparator c = false := hfirst c rfl
    have hrun : (c :: cs).takeWhile (!isSeparator ·) = c :: cs.takeWhile (!isSeparator ·) := by
      rw [List.takeWhile_cons, hc]
      rfl
    have hitems : ∀ a ∈ (c :: cs).takeWhile (!isSeparator ·), isSeparator a = false :=
      fun a ha => by simpa using List.mem_takeWhile_imp ha
    have hbehind : ∀ a, ((c :: cs).dropWhile (!isSeparator ·)).head? = some a →
        isSeparator a = true := by
      intro a ha
      have hhead := List.head?_dropWhile_not (!isSeparator ·) (c :: cs)
      rw [ha] at hhead
      simpa using hhead
    have hruns := runs_append_of_not_separator Char.utf8Size_pos (hrun ▸ List.cons_ne_nil _ _)
      hitems hbehind start
    rw [List.takeWhile_append_dropWhile] at hruns
    rw [hruns, hrun]
    exact ⟨rfl, rfl, rfl⟩

/-- The lexer has the other runs left after a number of calls. -/
theorem runs_after (l : Lexer) (k : Nat) :
    (l.after k).nameLen = l.nameLen ∧ (l.after k).runs = l.runs.drop k := by
  induction k with
  | zero => exact ⟨rfl, rfl⟩
  | succ k ih =>
    obtain ⟨hlen, hruns⟩ := ih
    obtain ⟨_, hlen', hruns'⟩ := (l.after k).next_eq
    have hafter : l.after (k + 1) = (l.after k).next.2 := Function.iterate_succ_apply' _ k l
    rw [hafter]
    refine ⟨hlen'.trans hlen, ?_⟩
    rw [hruns', hruns, List.tail_drop]

/-- **The call `k` meets the run `k`.** -/
theorem next_after (l : Lexer) (k : Nat) : (l.after k).next.1 = answer l.nameLen l.runs[k]? := by
  obtain ⟨hlen, hruns⟩ := l.runs_after k
  rw [(l.after k).next_eq.1, hlen, hruns, List.head?_drop]

end Lexer

/-! ## All tokens -/

variable {nameLen : Nat} {line : String} {texts : List String}

/-- The texts of a line are its runs. -/
theorem lineTexts_eq (line : String) :
    lineTexts line = ((lineRuns line).map Run.items).map String.ofList := by
  rw [lineTexts, List.map_map]
  rfl

/-- The text of a token is not empty, and no separator is in it. -/
theorem unseparated_of_mem_lineTexts {text : String} (h : text ∈ lineTexts line) :
    text ≠ "" ∧ ∀ c ∈ text.toList, isSeparator c = false := by
  obtain ⟨r, hr, rfl⟩ := List.mem_map.1 h
  obtain ⟨hne, hitems⟩ := items_of_mem_runs hr
  refine ⟨fun hempty => hne (String.ofList_eq_empty_iff.1 hempty), fun c hc => ?_⟩
  rw [String.toList_ofList] at hc
  exact (hitems c hc).2

/-- A line can be cut into tokens with these texts if they are its texts and fit. -/
theorem exists_tokenize_iff :
    (∃ tokens, tokenize nameLen line = .ok tokens ∧ tokens.map Token.text = texts) ↔
      lineTexts line = texts ∧ ∀ text ∈ texts, text.utf8ByteSize ≤ nameLen := by
  have hwidth : ∀ r : Run Char,
      (String.ofList r.items).utf8ByteSize = r.width Char.utf8Size := by
    intro r
    rw [utf8ByteSize_eq_extent, String.toList_ofList]
    rfl
  have hfit : firstTooLong? nameLen line = none ↔
      ∀ text ∈ lineTexts line, text.utf8ByteSize ≤ nameLen := by
    simp only [firstTooLong?, lineTexts, List.find?_eq_none, List.forall_mem_map, hwidth,
      decide_eq_true_eq, Nat.not_lt]
  rw [tokenize_eq]
  cases hlong : firstTooLong? nameLen line with
  | some r =>
    constructor
    · rintro ⟨_, h, _⟩
      cases h
    · rintro ⟨rfl, h⟩
      cases hlong.symm.trans (hfit.2 h)
  | none =>
    constructor
    · rintro ⟨_, ⟨⟩, rfl⟩
      have htexts : ((lineRuns line).map fun r => (⟨String.ofList r.items, r.pos⟩ : Token)).map
          Token.text = lineTexts line := by
        simp [lineTexts]
      rw [htexts]
      exact ⟨rfl, hfit.1 hlong⟩
    · rintro ⟨rfl, _⟩
      exact ⟨_, rfl, by simp [lineTexts]⟩

/-- The line is made of these texts, with separators behind each of them; only behind the last there
may be none. -/
inductive Joined : List String → String → Prop
  | nil : Joined [] ""
  | single (text : String) : Joined [text] text
  | cons {text gap line : String} {texts : List String} (hgap : gap ≠ "")
    (hseparators : ∀ c ∈ gap.toList, isSeparator c = true) (h : Joined texts line) :
    Joined (text :: texts) (text ++ gap ++ line)

/-- **The texts of tokens are read again**, whatever separators are between them. -/
theorem lineTexts_of_joined (h : Joined texts line)
    (htexts : ∀ text ∈ texts, text ≠ "" ∧ ∀ c ∈ text.toList, isSeparator c = false) :
    lineTexts line = texts := by
  induction h with
  | nil => rfl
  | single text =>
    obtain ⟨hne, htext⟩ := htexts text List.mem_cons_self
    have hruns : lineRuns text = [⟨0, text.toList⟩] :=
      runs_eq_singleton _ _ (mt String.toList_eq_nil_iff.1 hne) htext 0
    rw [lineTexts, hruns, List.map_singleton, String.ofList_toList]
  | @cons text gap line texts hgap hseparators _ ih =>
    obtain ⟨hne, htext⟩ := htexts text List.mem_cons_self
    have hlater := ih fun t ht => htexts t (List.mem_cons_of_mem _ ht)
    have hbehind : ∀ c, (gap.toList ++ line.toList).head? = some c → isSeparator c = true := by
      intro c hc
      rw [List.head?_append_of_ne_nil _ (mt String.toList_eq_nil_iff.1 hgap)] at hc
      exact hseparators c (List.mem_of_head? hc)
    have hlist : (text ++ gap ++ line).toList = text.toList ++ (gap.toList ++ line.toList) := by
      simp
    have hruns : lineRuns (text ++ gap ++ line) =
        ⟨0, text.toList⟩ :: Text.runs Char.utf8Size isSeparator
          (0 + extent Char.utf8Size text.toList + extent Char.utf8Size gap.toList) line.toList := by
      rw [lineRuns, hlist, runs_append_of_not_separator Char.utf8Size_pos
        (mt String.toList_eq_nil_iff.1 hne) htext hbehind, runs_separators_append _ _ hseparators]
    rw [lineTexts_eq, hruns, List.map_cons, List.map_cons, map_items_runs, ← lineRuns,
      ← lineTexts_eq, hlater, String.ofList_toList]

/-! ## The theorem -/

/-- How a line is read whose bytes have these maximal runs. -/
structure ReadsRuns (nameLen : Nat) (line : String) (rs : List (Run UInt8)) : Prop where
  /-- A call answers by a run that fits with the token that starts there and has its bytes. -/
  token : ∀ (k : Nat) (r : Run UInt8), rs[k]? = some r → r.items.length ≤ nameLen → ∃ text : String,
    text.toUTF8.data.toList = r.items ∧
      ((Lexer.ofLine nameLen line).after k).next.1 = .ok (some ⟨text, r.pos⟩)
  /-- A call is refused for a run that does not fit; the calls after it go on all the same. -/
  tooLong : ∀ (k : Nat) (r : Run UInt8), rs[k]? = some r → nameLen < r.items.length →
    ((Lexer.ofLine nameLen line).after k).next.1 = .error (.tokenTooLong (r.pos + nameLen))
  /-- After the last run there is no token, for ever. -/
  finished : ∀ k, rs.length ≤ k → ((Lexer.ofLine nameLen line).after k).next.1 = .ok none
  /-- If all runs fit, cutting the line gives all of them. -/
  tokens : (∀ r ∈ rs, r.items.length ≤ nameLen) → ∃ tokens, tokenize nameLen line = .ok tokens ∧
    List.Forall₂ (fun t r => t.pos = r.pos ∧ t.text.toUTF8.data.toList = r.items) tokens rs
  /-- If not, cutting the line is refused for the first that does not. -/
  firstLong : ∀ (k : Nat) (r : Run UInt8), rs[k]? = some r → nameLen < r.items.length →
    (∀ (j : Nat) (q : Run UInt8), j < k → rs[j]? = some q → q.items.length ≤ nameLen) →
      tokenize nameLen line = .error (.tokenTooLong (r.pos + nameLen))
  /-- Every run begins and ends between two characters of the line. -/
  boundaries : ∀ r ∈ rs, (⟨r.pos⟩ : String.Pos.Raw).IsValid line ∧
    (⟨r.pos + r.items.length⟩ : String.Pos.Raw).IsValid line
  /-- The texts of the tokens are read again, whatever separators are put between them. -/
  again : ∀ tokens line', tokenize nameLen line = .ok tokens →
    Joined (tokens.map Token.text) line' → ∃ tokens', tokenize nameLen line' = .ok tokens' ∧
      tokens'.map Token.text = tokens.map Token.text

/-- The bytes of a run of characters are those of its text. -/
theorem bytes_ofList (cs : List Char) :
    (String.ofList cs).toUTF8.data.toList = Utf8.encode cs := by
  rw [← Utf8.encode_toList, String.toList_ofList]

/-- Where a text can be cut into characters, there is a position of it. -/
theorem isValid_extent {front behind : List Char} (h : line.toList = front ++ behind) :
    (⟨extent Char.utf8Size front⟩ : String.Pos.Raw).IsValid line := by
  refine String.Pos.Raw.isValid_iff_exists_append.2 ⟨.ofList front, .ofList behind, ?_, ?_⟩
  · rw [← String.ofList_append, ← h, String.ofList_toList]
  · rw [String.rawEndPos, utf8ByteSize_eq_extent, String.toList_ofList]

/-- A run of a line begins and ends between two characters. -/
theorem isValid_of_mem_lineRuns {r : Run Char} (h : r ∈ lineRuns line) :
    (⟨r.pos⟩ : String.Pos.Raw).IsValid line ∧
      (⟨r.pos + r.width Char.utf8Size⟩ : String.Pos.Raw).IsValid line := by
  obtain ⟨front, behind, hsplit, hpos, _⟩ := maximal_of_mem_runs Char.utf8Size_pos h
  rw [Nat.zero_add] at hpos
  rw [hpos]
  refine ⟨isValid_extent hsplit, ?_⟩
  rw [Run.width, ← extent_append]
  rw [← List.append_assoc] at hsplit
  exact isValid_extent hsplit

/-- A line is read by the runs of its bytes, which are its runs of characters encoded. -/
theorem readsRuns (nameLen : Nat) (line : String) :
    ReadsRuns nameLen line (Line.byteRuns (Utf8.encode line.toList)) := by
  have hcall : ∀ k, ((Lexer.ofLine nameLen line).after k).next.1 =
      Lexer.answer nameLen (lineRuns line)[k]? := fun k => (Lexer.ofLine nameLen line).next_after k
  have hlength : ∀ q : Run Char, (Line.encodeRun q).items.length = q.width Char.utf8Size :=
    fun q => Utf8.length_encode q.items
  have hruns := Line.byteRuns_encode line
  have hget : ∀ {k : Nat} {r : Run UInt8}, (Line.byteRuns (Utf8.encode line.toList))[k]? = some r →
      ∃ q, (lineRuns line)[k]? = some q ∧ Line.encodeRun q = r := by
    intro k r h
    rwa [hruns, List.getElem?_map, Option.map_eq_some_iff] at h
  constructor
  · intro k r hr hfit
    obtain ⟨q, hq, rfl⟩ := hget hr
    rw [hlength] at hfit
    refine ⟨String.ofList q.items, bytes_ofList q.items, ?_⟩
    rw [hcall, hq, Lexer.answer, Token.ofRun, if_pos hfit]
    rfl
  · intro k r hr hlong
    obtain ⟨q, hq, rfl⟩ := hget hr
    rw [hlength] at hlong
    rw [hcall, hq, Lexer.answer, Token.ofRun, if_neg (Nat.not_le_of_lt hlong)]
    rfl
  · intro k hk
    rw [hruns, List.length_map] at hk
    rw [hcall, List.getElem?_eq_none hk]
    rfl
  · intro hfit
    refine ⟨_, by rw [tokenize_eq, Line.firstTooLong?_eq_none hfit], ?_⟩
    rw [hruns, List.forall₂_map_left_iff, List.forall₂_map_right_iff]
    exact List.forall₂_same.2 fun q _ => ⟨rfl, bytes_ofList q.items⟩
  · intro k r hr hlong hbefore
    have hfirst := Line.longRun?_of_first hr hlong hbefore
    rw [Line.longRun?_encode, Option.map_eq_some_iff] at hfirst
    obtain ⟨q, hq, rfl⟩ := hfirst
    rw [tokenize_eq, hq]
    rfl
  · intro r hr
    rw [hruns] at hr
    obtain ⟨q, hq, rfl⟩ := List.mem_map.1 hr
    rw [hlength]
    exact isValid_of_mem_lineRuns hq
  · intro tokens line' htokens hjoined
    obtain ⟨htexts, hfit⟩ := exists_tokenize_iff.1 ⟨tokens, htokens, rfl⟩
    refine exists_tokenize_iff.2 ⟨lineTexts_of_joined hjoined fun text htext => ?_, hfit⟩
    rw [← htexts] at htext
    exact unseparated_of_mem_lineTexts htext

/-- **What a lexer reads.**  The bytes of a line have one list of maximal runs between spaces and
NULs, and that is what is read, whatever the longest name. -/
theorem lexer_reads (nameLen : Nat) (line : String) :
    ∃ rs, (∀ rs', MaximalRuns Line.byteSize Line.isSeparatorByte 0 line.toUTF8.data.toList rs' ↔
      rs' = rs) ∧ ReadsRuns nameLen line rs := by
  rw [← Utf8.encode_toList]
  exact ⟨_, fun _ => maximalRuns_iff Line.byteSize_pos, readsRuns nameLen line⟩

/-- A token of one character, which are two bytes; one of three bytes, which is refused at its last;
and one that is read all the same. -/
example : (List.range 4).map (fun k => ((Lexer.ofLine 2 "\x00é  sum 7").after k).next.1) =
    [.ok (some ⟨"é", 1⟩), .error (.tokenTooLong 7), .ok (some ⟨"7", 9⟩), .ok none] := by
  decide

end Threaded
