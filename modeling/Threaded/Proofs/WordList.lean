import Mathlib.Data.List.Induction
import Threaded.Console
import Threaded.Proofs.Ledger
import Threaded.Proofs.Newest

/-!
# The list of words

A console that is asked for its words prints one text.  Cut at its spaces, the text is a list of
names: those that can be found, each once, and in the order in which they lead into the ledger, the
newest first (`Machine.words_listing`).

Two facts carry this.  The names are kept newest first and with all repetitions, and of those that
are equal the first is listed; that is the very entry that a lookup finds
(`Dict.Chronicled.pairwise_words`).  And no name holds a space, not even that of the boot, which has
not been checked (`Machine.Reachable.noSpace`).  So nothing is lost when the names are joined.
-/

namespace Threaded

namespace Text

/-! ## Repetitions left out -/

section EraseDups

variable {α β : Type} [BEq β] [LawfulBEq β] {l : List β} {b : β}

/-- What is there already is left out at the end. -/
theorem eraseDups_concat_of_mem (h : b ∈ l) : (l ++ [b]).eraseDups = l.eraseDups := by
  simp [List.eraseDups_append, List.removeAll, h]

/-- An item that is new stays at the end. -/
theorem eraseDups_concat_of_notMem (h : b ∉ l) : (l ++ [b]).eraseDups = l.eraseDups ++ [b] := by
  simp [List.eraseDups_append, List.eraseDups_cons, List.removeAll, h]

/-- **Of equal values the first is kept.**  So if items stand in some order, the items that the
values come from stand in this order too when repetitions are left out. -/
theorem pairwise_eraseDups_filterMap {R : α → α → Prop} (f : α → Option β) {l : List α}
    (h : l.Pairwise R) :
    (l.filterMap f).eraseDups.Pairwise fun b c => ∃ x y,
      l.find? (f · == some b) = some x ∧ l.find? (f · == some c) = some y ∧ R x y := by
  -- from the back: an item that is put last is the first of its value only if that is new
  induction l using List.reverseRecOn with
  | nil => exact .nil
  | append_singleton l a ih =>
    obtain ⟨hl, -, hlast⟩ := List.pairwise_append.1 h
    have hfirst : ∀ {b x}, l.find? (f · == some b) = some x →
        (l ++ [a]).find? (f · == some b) = some x := by
      intro b x hx
      rw [List.find?_append, hx]
      rfl
    have hold : (l.filterMap f).eraseDups.Pairwise fun b c => ∃ x y,
        (l ++ [a]).find? (f · == some b) = some x ∧
          (l ++ [a]).find? (f · == some c) = some y ∧ R x y :=
      (ih hl).imp fun ⟨x, y, hx, hy, hxy⟩ => ⟨x, y, hfirst hx, hfirst hy, hxy⟩
    rw [List.filterMap_append]
    cases ha : f a with
    | none =>
      rw [List.filterMap_cons_none ha, List.filterMap_nil, List.append_nil]
      exact hold
    | some c =>
      rw [List.filterMap_cons_some ha, List.filterMap_nil]
      by_cases hc : c ∈ l.filterMap f
      · rw [eraseDups_concat_of_mem hc]
        exact hold
      · rw [eraseDups_concat_of_notMem hc]
        have hnew : (l ++ [a]).find? (f · == some c) = some a := by
          have hnone : l.find? (f · == some c) = none := List.find?_eq_none.2 fun x hx hfx =>
            hc (List.mem_filterMap.2 ⟨x, hx, eq_of_beq hfx⟩)
          rw [List.find?_append, hnone]
          simp [ha]
        refine List.pairwise_append.2 ⟨hold, List.pairwise_singleton _ _, fun b hb c' hc' => ?_⟩
        obtain rfl := List.mem_singleton.1 hc'
        obtain ⟨x, hx, hfx⟩ := List.mem_filterMap.1 (List.mem_eraseDups.1 hb)
        obtain ⟨y, hy⟩ : ∃ y, l.find? (f · == some b) = some y :=
          Option.isSome_iff_exists.1 (List.find?_isSome.2 ⟨x, hx, by rw [hfx, beq_self_eq_true]⟩)
        exact ⟨y, a, hfirst hy, hnew,
          hlast y (List.mem_of_find?_eq_some hy) a (List.mem_singleton_self a)⟩

end EraseDups

/-! ## Joining and cutting -/

/-- The pieces of a text between its spaces. -/
def splitAtSpaces (text : String) : List String :=
  (text.split ' ').toList.map (·.copy)

/-- Names without spaces are not lost when they are joined. -/
theorem splitAtSpaces_intercalate {names : List String} (hne : names ≠ [])
    (hspace : ∀ name ∈ names, ' ' ∉ name.toList) : splitAtSpaces (" ".intercalate names) = names := by
  have h := String.toList_split_intercalate hspace
  rw [if_neg hne] at h
  exact h

end Text

namespace Dict

variable {d : Dict} {name : String}

/-- **Exactly what can be found is listed.** -/
theorem mem_words_iff : name ∈ d.words ↔ (d.lookup name).isSome := by
  rw [words, List.mem_eraseDups, names, List.mem_filterMap, lookup, List.find?_isSome]
  simp only [beq_iff_eq]

/-- **Names are listed as they lead into the ledger**, the newest first. -/
theorem Chronicled.pairwise_words (h : d.Chronicled) :
    d.words.Pairwise fun name name' => ∃ r q,
      d.lookup name = some r ∧ d.lookup name' = some q ∧ q < r :=
  Text.pairwise_eraseDups_filterMap d.nameOf? h.sorted

/-- The names are those that can be found, each once, the newest first. -/
structure ListedBy (d : Dict) (names : List String) : Prop where
  nodup : names.Nodup
  mem_iff : ∀ name, name ∈ names ↔ (d.lookup name).isSome
  newestFirst : names.Pairwise fun name name' => ∃ r q,
    d.lookup name = some r ∧ d.lookup name' = some q ∧ q < r

/-- Names that lead to one place after the other are not the same. -/
theorem Chronicled.listedBy_words (h : d.Chronicled) : d.ListedBy d.words where
  nodup := h.pairwise_words.imp fun ⟨r, q, hr, hq, hlt⟩ heq => by
    subst heq
    exact Nat.ne_of_gt hlt (Option.some.inj (hr.symm.trans hq))
  mem_iff _ := mem_words_iff
  newestFirst := h.pairwise_words

end Dict

namespace Machine

variable {allowed : Command → Prop} {m : Machine}

/-- **No name holds a space**, on any machine. -/
theorem Reachable.noSpace (h : Reachable allowed m) {r : Ref} {name : String}
    (hname : m.dict.nameOf? r = some name) : ' ' ∉ name.toList := by
  by_cases hr : r = nop
  · subst hr
    rw [Dict.nameOf?, h.get?_nop] at hname
    obtain rfl : "NOP" = name := Option.some.inj hname
    decide
  · obtain ⟨limits, hdev⟩ := h.exists_develops
    exact (hdev.ledgerInvariant.named r name hname hr).noSpace

/-- There always is a word, since the NOP of the boot can be found. -/
theorem Reachable.words_ne_nil (h : Reachable allowed m) : m.dict.words ≠ [] := by
  have hnop : m.dict.nameOf? nop ≠ none := by
    rw [Dict.nameOf?, h.get?_nop]
    exact Option.some_ne_none _
  obtain ⟨name, hname⟩ := Option.ne_none_iff_exists'.1 hnop
  have hmem : name ∈ m.dict.words := by
    rw [Dict.words, List.mem_eraseDups, Dict.names]
    exact List.mem_filterMap.2 ⟨nop, (h.chronicled.complete nop).2 hnop, hname⟩
  exact List.ne_nil_of_mem hmem

/-- **The list of words is faithful.**  Whatever has happened to a machine, the text that it answers
when it is asked for its words, cut at the spaces, has the names that can be found and no others,
each once, and in the order of the entries they lead to, the newest first. -/
theorem words_listing (h : Reachable allowed m) :
    ∃ text, (∀ f fuel, Console.answer f fuel m .words = some (.out (text ++ "\n"), m)) ∧
      m.dict.ListedBy (Text.splitAtSpaces text) := by
  refine ⟨" ".intercalate m.dict.words, fun f fuel => rfl, ?_⟩
  rw [Text.splitAtSpaces_intercalate h.words_ne_nil]
  · exact h.chronicled.listedBy_words
  · intro name hname
    obtain ⟨r, -, hr⟩ := List.mem_filterMap.1 (List.mem_eraseDups.1 hname)
    exact h.noSpace hr

/-- Two names, each of them bound twice. -/
theorem words_listing_shadowed :
    ∃ m, Reachable (fun _ => True) m ∧ m.dict.names = ["A", "NOP", "A", "NOP"] ∧
      Console.wordsText m.dict = "A NOP\n" ∧ m.dict.ListedBy (Text.splitAtSpaces "A NOP") := by
  have hreach : Reachable (fun _ => True)
      (((boot {}).define "A" "1").2.defword "NOP" (.op .neg)).2 :=
    .obey 0 (.obey 0 (.boot {}) (c := .define "A" "1") trivial rfl)
      (c := .defword "NOP" (.op .neg)) trivial rfl
  have hreach : Reachable (fun _ => True)
      ((((boot {}).define "A" "1").2.defword "NOP" (.op .neg)).2.define "A" "A A").2 :=
    .obey 0 hreach (c := .define "A" "A A") trivial rfl
  obtain ⟨text, hanswer, hlisted⟩ := words_listing hreach
  have htext : "A NOP" ++ "\n" = text ++ "\n" :=
    congrArg (fun answer => ((answer.map Prod.fst).getD {}).stdout) (hanswer [] 0)
  obtain rfl := (String.append_left_inj "\n").1 htext
  exact ⟨_, hreach, by decide, by decide, hlisted⟩

end Machine

end Threaded
