import Mathlib.Data.List.TakeWhile
import Threaded.Proofs.Tokens
import Threaded.Token.Lexer

/-!
# Names are tokens

A name is accepted if the first token of a lexer that is put in front of it is the whole name.  So
the accepted names are the texts that are not empty, hold no separator and fit (`isName_iff`), and
cut into tokens such a text is one token, itself (`tokenize_of_isName`).
-/

namespace Threaded

/-- Items without a separator among them are one run. -/
theorem Text.runs_eq_singleton {α : Type} (size : α → Nat) {isSeparator : α → Bool} :
    (l : List α) → l ≠ [] → (∀ a ∈ l, isSeparator a = false) → (pos : Nat) →
      runs size isSeparator pos l = [⟨pos, l⟩]
  | [], h, _, _ => absurd rfl h
  | [a], _, h, pos => by
    rw [runs, h a List.mem_cons_self, runs_nil]
  | a :: b :: rest, _, h, pos => by
    have ih := runs_eq_singleton size (b :: rest) (List.cons_ne_nil _ _)
      (fun c hc => h c (List.mem_cons_of_mem _ hc)) (pos + size a)
    rw [runs, h a List.mem_cons_self, ih]
    simp

variable {nameLen : Nat} {name : String}

/-- A run of the size of its text. -/
theorem width_toList (pos : Nat) (name : String) :
    Text.Run.width Char.utf8Size ⟨pos, name.toList⟩ = name.utf8ByteSize :=
  (utf8ByteSize_eq_extent name).symm

/-- The run of characters that is the first token of a text. -/
def firstRun (cs : List Char) : List Char :=
  (cs.dropWhile isSeparator).takeWhile (!isSeparator ·)

/-- A name is the first run in it, and fits. -/
theorem isName_iff_firstRun :
    isName nameLen name = true ↔
      firstRun name.toList = name.toList ∧ name ≠ "" ∧ name.utf8ByteSize ≤ nameLen := by
  unfold isName Lexer.next Lexer.ofLine
  dsimp only
  rw [← firstRun]
  generalize 0 + Lexer.size (name.toList.takeWhile isSeparator) = pos
  cases hrun : firstRun name.toList with
  | nil =>
    refine ⟨fun h => by simp at h, ?_⟩
    rintro ⟨hlist, hne, _⟩
    exact absurd (String.toList_eq_nil_iff.1 hlist.symm) hne
  | cons c cs =>
    have hname : String.ofList (c :: cs) = name ↔ c :: cs = name.toList :=
      ⟨fun h => by rw [← h, String.toList_ofList], fun h => by rw [h, String.ofList_toList]⟩
    by_cases hlist : c :: cs = name.toList
    · have hne : name ≠ "" := by
        rintro rfl
        simp at hlist
      by_cases hfit : name.utf8ByteSize ≤ nameLen <;>
        simp [hlist, Token.ofRun, width_toList, hfit, hne, Except.map]
    · have hne : String.ofList (c :: cs) ≠ name := fun h => hlist (hname.1 h)
      by_cases hfit : Text.Run.width Char.utf8Size ⟨pos, c :: cs⟩ ≤ nameLen
      · simpa [Token.ofRun, hfit, hlist, Except.map] using hne
      · simp [Token.ofRun, hfit, hlist, Except.map]

/-- **The accepted names** are the texts that are not empty, hold no separator and fit. -/
theorem isName_iff :
    isName nameLen name = true ↔
      name ≠ "" ∧ (∀ c ∈ name.toList, isSeparator c = false) ∧ name.utf8ByteSize ≤ nameLen := by
  rw [isName_iff_firstRun]
  constructor
  · rintro ⟨hrun, hne, hfit⟩
    refine ⟨hne, ?_, hfit⟩
    intro c hc
    rw [← hrun] at hc
    simpa using List.mem_takeWhile_imp hc
  · rintro ⟨hne, hsep, hfit⟩
    refine ⟨?_, hne, hfit⟩
    have hdrop : name.toList.dropWhile isSeparator = name.toList :=
      List.dropWhile_eq_self_iff.2 fun hpos => by simp [hsep _ (List.getElem_mem hpos)]
    rw [firstRun, hdrop]
    exact List.takeWhile_eq_self_iff.2 fun c hc => by simp [hsep c hc]

/-- **A name is one token.** -/
theorem tokenize_of_isName (h : isName nameLen name = true) :
    tokenize nameLen name = .ok [⟨name, 0⟩] := by
  obtain ⟨hne, hsep, hfit⟩ := isName_iff.1 h
  have hruns : lineRuns name = [⟨0, name.toList⟩] :=
    Text.runs_eq_singleton _ _ (mt String.toList_eq_nil_iff.1 hne) hsep 0
  unfold tokenize
  rw [hruns, List.mapM_cons, List.mapM_nil]
  simp [Token.ofRun, width_toList, hfit]

end Threaded
