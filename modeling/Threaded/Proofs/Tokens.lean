import Threaded.Token

/-!
# The tokens of a line

The runs of a line lie inside it, hold no separator, and are not empty; since two of them never
touch, a line of `n` bytes has no more than about half as many (`two_mul_length_lineRuns_le`).  A
separator parts the runs in front of it from those behind it (`runs_append_separator`).
Cutting a line into tokens fails at its first run that is too long and gives all of them when there
is none (`tokenize_eq`).
-/

namespace Threaded

namespace Text

variable {α : Type} {size : α → Nat} {isSeparator : α → Bool}

/-- An item that is no separator joins the run behind it or is a run of its own. -/
theorem runs_cons_of_not_separator (size : α → Nat) {a : α} (h : isSeparator a = false) (pos : Nat)
    (rest : List α) :
    (∃ r rs, runs size isSeparator (pos + size a) rest = r :: rs ∧ r.pos = pos + size a ∧
      runs size isSeparator pos (a :: rest) = ⟨pos, a :: r.items⟩ :: rs) ∨
    ((∀ r rs, runs size isSeparator (pos + size a) rest = r :: rs → r.pos ≠ pos + size a) ∧
      runs size isSeparator pos (a :: rest) =
        ⟨pos, [a]⟩ :: runs size isSeparator (pos + size a) rest) := by
  rw [runs, h]
  cases hrs : runs size isSeparator (pos + size a) rest with
  | nil => exact .inr ⟨fun r rs h => (List.cons_ne_nil r rs h.symm).elim, rfl⟩
  | cons r rs =>
    by_cases hpos : r.pos = pos + size a
    · exact .inl ⟨r, rs, rfl, hpos, if_pos hpos⟩
    · refine .inr ⟨fun r' rs' h => ?_, if_neg hpos⟩
      cases h
      exact hpos

/-- A run is not empty and holds items of the sequence that are no separators. -/
theorem items_of_mem_runs {l : List α} {pos : Nat} {r : Run α}
    (h : r ∈ runs size isSeparator pos l) :
    r.items ≠ [] ∧ ∀ a ∈ r.items, a ∈ l ∧ isSeparator a = false := by
  induction l generalizing pos r with
  | nil => cases h
  | cons a rest ih =>
    have hbehind : ∀ q ∈ runs size isSeparator (pos + size a) rest,
        q.items ≠ [] ∧ ∀ b ∈ q.items, b ∈ a :: rest ∧ isSeparator b = false := fun q hq =>
      ⟨(ih hq).1, fun b hb => ⟨List.mem_cons_of_mem _ ((ih hq).2 b hb).1, ((ih hq).2 b hb).2⟩⟩
    cases ha : isSeparator a with
    | true =>
      rw [runs_cons_of_separator ha] at h
      exact hbehind r h
    | false =>
      rcases runs_cons_of_not_separator size ha pos rest with
        ⟨q, rs, hrs, _, hrun⟩ | ⟨_, hrun⟩
      · rw [hrun] at h
        rw [hrs] at hbehind
        rcases List.mem_cons.1 h with rfl | h
        · refine ⟨List.cons_ne_nil _ _, ?_⟩
          intro b hb
          rcases List.mem_cons.1 hb with rfl | hb
          · exact ⟨List.mem_cons_self, ha⟩
          · exact (hbehind q List.mem_cons_self).2 b hb
        · exact hbehind r (List.mem_cons_of_mem _ h)
      · rw [hrun] at h
        rcases List.mem_cons.1 h with rfl | h
        · refine ⟨List.cons_ne_nil _ _, ?_⟩
          intro b hb
          obtain rfl := List.mem_singleton.1 hb
          exact ⟨List.mem_cons_self, ha⟩
        · exact hbehind r h

/-- A run lies inside its sequence. -/
theorem stop_le_of_mem_runs {l : List α} {pos : Nat} {r : Run α}
    (h : r ∈ runs size isSeparator pos l) : pos ≤ r.pos ∧ r.stop size ≤ pos + extent size l := by
  induction l generalizing pos r with
  | nil => cases h
  | cons a rest ih =>
    rw [extent_cons]
    have hbehind : ∀ q ∈ runs size isSeparator (pos + size a) rest,
        pos ≤ q.pos ∧ q.stop size ≤ pos + (size a + extent size rest) := by
      intro q hq
      have := ih hq
      omega
    cases ha : isSeparator a with
    | true =>
      rw [runs_cons_of_separator ha] at h
      exact hbehind r h
    | false =>
      rcases runs_cons_of_not_separator size ha pos rest with
        ⟨q, rs, hrs, hpos, hrun⟩ | ⟨_, hrun⟩
      · rw [hrun] at h
        rw [hrs] at hbehind
        rcases List.mem_cons.1 h with rfl | h
        · have hq := (hbehind q List.mem_cons_self).2
          simp only [Run.stop, Run.width, extent_cons] at hq ⊢
          omega
        · exact hbehind r (List.mem_cons_of_mem _ h)
      · rw [hrun] at h
        rcases List.mem_cons.1 h with rfl | h
        · simp only [Run.stop, Run.width, extent_cons, extent_nil]
          omega
        · exact hbehind r h

/-- A run and the separator behind it take at least two places; only the last run, which then
starts the sequence or comes behind a separator, may do without one. -/
theorem two_mul_length_runs_le (hsize : ∀ a, 0 < size a) (l : List α) (pos : Nat) :
    2 * (runs size isSeparator pos l).length ≤ extent size l +
      if (runs size isSeparator pos l).head?.map Run.pos = some pos then 1 else 0 := by
  induction l generalizing pos with
  | nil => simp
  | cons a rest ih =>
    have hpos := hsize a
    have hrest := ih (pos + size a)
    rw [extent_cons]
    cases ha : isSeparator a with
    | true =>
      rw [runs_cons_of_separator ha]
      split at hrest <;> omega
    | false =>
      rcases runs_cons_of_not_separator size ha pos rest with
        ⟨q, rs, hrs, hq, hrun⟩ | ⟨hgap, hrun⟩
      · rw [hrs] at hrest
        rw [hrun, if_pos (by simp)]
        rw [List.length_cons] at hrest ⊢
        split at hrest <;> omega
      · rw [hrun, if_pos (by simp), List.length_cons]
        rw [if_neg] at hrest
        · omega
        · cases hrs : runs size isSeparator (pos + size a) rest with
          | nil => simp
          | cons q rs => simpa using hgap q rs hrs

/-! ### Cutting at separators -/

/-- Where a sequence starts only moves its runs. -/
theorem runs_add (k : Nat) : (l : List α) → (pos : Nat) →
    runs size isSeparator (k + pos) l =
      (runs size isSeparator pos l).map fun r => ⟨k + r.pos, r.items⟩
  | [], _ => rfl
  | a :: rest, pos => by
    have ih := runs_add k rest (pos + size a)
    rw [← Nat.add_assoc] at ih
    rw [runs, runs, ih]
    cases isSeparator a with
    | true => rfl
    | false =>
      cases runs size isSeparator (pos + size a) rest with
      | nil => rfl
      | cons r rs =>
        have hpos : k + r.pos = k + pos + size a ↔ r.pos = pos + size a := by omega
        simp only [List.map_cons, hpos]
        split <;> rfl

/-- **A separator parts the runs** in front of it from those behind it. -/
theorem runs_append_separator {b : α} (hb : isSeparator b = true) (hsize : 0 < size b)
    (behind : List α) : (l : List α) → (pos : Nat) →
      runs size isSeparator pos (l ++ b :: behind) =
        runs size isSeparator pos l ++ runs size isSeparator (pos + extent size l + size b) behind
  | [], pos => runs_cons_of_separator hb pos behind
  | a :: rest, pos => by
    have ih := runs_append_separator hb hsize behind rest (pos + size a)
    rw [List.cons_append, extent_cons, ← Nat.add_assoc, runs, runs, ih]
    cases isSeparator a with
    | true => rfl
    | false =>
      cases runs size isSeparator (pos + size a) rest with
      | cons r rs =>
        dsimp only [List.cons_append]
        split <;> rfl
      | nil =>
        rw [List.nil_append]
        cases hrs : runs size isSeparator (pos + size a + extent size rest + size b) behind with
        | nil => rfl
        | cons r rs =>
          -- the next run starts behind the separator, so nothing joins it
          have hr := (stop_le_of_mem_runs (hrs ▸ List.mem_cons_self)).1
          exact if_neg (by omega)

/-- The runs of a sequence without separators: itself, unless it is empty. -/
theorem runs_of_not_separator : (l : List α) → (pos : Nat) → (∀ a ∈ l, isSeparator a = false) →
    runs size isSeparator pos l = if l = [] then [] else [⟨pos, l⟩]
  | [], _, _ => rfl
  | a :: rest, pos, h => by
    have ih := runs_of_not_separator rest (pos + size a) fun b hb => h b (List.mem_cons_of_mem _ hb)
    rw [runs, ih, h a List.mem_cons_self, if_neg (List.cons_ne_nil a rest)]
    cases rest with
    | nil => rfl
    | cons b rest => simp

/-- What holds of sequences without separators, and of a sequence if it holds of what is behind its
first separator, holds of all sequences. -/
theorem induction_on_separators (isSeparator : α → Bool) {motive : List α → Prop}
    (last : ∀ l, (∀ a ∈ l, isSeparator a = false) → motive l)
    (cut : ∀ front b behind, (∀ a ∈ front, isSeparator a = false) → isSeparator b = true →
      motive behind → motive (front ++ b :: behind)) (l : List α) : motive l := by
  -- what is known to hold no separator is put in front
  suffices h : ∀ front, (∀ a ∈ front, isSeparator a = false) → motive (front ++ l) from
    h [] fun _ ha => absurd ha List.not_mem_nil
  induction l with
  | nil =>
    intro front hfront
    rw [List.append_nil]
    exact last front hfront
  | cons b rest ih =>
    intro front hfront
    cases hb : isSeparator b with
    | true => exact cut front b rest hfront hb (ih [] fun _ ha => absurd ha List.not_mem_nil)
    | false =>
      rw [List.append_cons]
      apply ih
      intro a ha
      rcases List.mem_append.1 ha with ha | ha
      · exact hfront a ha
      · rwa [List.mem_singleton.1 ha]

end Text

/-! ## Lines -/

/-- The size of a text is what its characters take up. -/
theorem utf8ByteSize_eq_extent (s : String) :
    s.utf8ByteSize = Text.extent Char.utf8Size s.toList := by
  have h : ∀ cs : List Char, (String.ofList cs).utf8ByteSize = Text.extent Char.utf8Size cs := by
    intro cs
    induction cs with
    | nil => rfl
    | cons c cs ih =>
      rw [← List.singleton_append, String.ofList_append, String.utf8ByteSize_append, ih,
        ← String.singleton_eq_ofList, String.utf8ByteSize_singleton, List.singleton_append,
        Text.extent_cons]
  rw [← h, String.ofList_toList]

/-- A character has four bytes at most. -/
theorem utf8ByteSize_le_length (s : String) : s.utf8ByteSize ≤ 4 * s.length := by
  have h : ∀ cs : List Char, Text.extent Char.utf8Size cs ≤ 4 * cs.length := by
    intro cs
    induction cs with
    | nil => exact Nat.le_refl _
    | cons c cs ih =>
      have hc := c.utf8Size_le_four
      rw [Text.extent_cons, List.length_cons]
      omega
  rw [utf8ByteSize_eq_extent, ← String.length_toList]
  exact h _

/-- A line of a given size has about half as many tokens at most. -/
theorem two_mul_length_lineRuns_le (line : String) :
    2 * (lineRuns line).length ≤ line.utf8ByteSize + 1 := by
  have h := @Text.two_mul_length_runs_le _ _ isSeparator Char.utf8Size_pos line.toList 0
  rw [utf8ByteSize_eq_extent]
  unfold lineRuns
  split at h <;> omega

/-- A run of a line lies inside it. -/
theorem stop_le_of_mem_lineRuns {line : String} {r : Text.Run Char} (h : r ∈ lineRuns line) :
    r.stop Char.utf8Size ≤ line.utf8ByteSize := by
  have := (Text.stop_le_of_mem_runs h).2
  rw [utf8ByteSize_eq_extent]
  omega

/-! ## Cutting -/

/-- The first run of a line that is longer than `nameLen` bytes. -/
def firstTooLong? (nameLen : Nat) (line : String) : Option (Text.Run Char) :=
  (lineRuns line).find? fun r => nameLen < r.width Char.utf8Size

/-- The texts of the tokens of a line, whatever their length. -/
def lineTexts (line : String) : List String :=
  (lineRuns line).map fun r => String.ofList r.items

/-- The symbols of a line, whatever the length of its tokens. -/
def lineSymbols (line : String) : List Symbol :=
  (lineTexts line).map Symbol.ofText

/-- There is a symbol for every run. -/
theorem length_lineSymbols (line : String) :
    (lineSymbols line).length = (lineRuns line).length := by
  simp [lineSymbols, lineTexts]

/-- **Cutting a line into tokens** fails at the first run that is too long; when there is none,
every run is a token. -/
theorem tokenize_eq (nameLen : Nat) (line : String) :
    tokenize nameLen line =
      match firstTooLong? nameLen line with
      | some r => .error (.tokenTooLong (r.pos + nameLen))
      | none => .ok ((lineRuns line).map fun r => ⟨String.ofList r.items, r.pos⟩) := by
  unfold tokenize firstTooLong?
  induction lineRuns line with
  | nil => rfl
  | cons r rs ih =>
    rw [List.mapM_cons, ih, List.find?_cons]
    by_cases hr : r.width Char.utf8Size ≤ nameLen
    · have hlt : ¬ nameLen < r.width Char.utf8Size := by omega
      simp only [Token.ofRun, if_pos hr, decide_eq_false hlt, List.map_cons]
      cases rs.find? fun r => nameLen < r.width Char.utf8Size <;> rfl
    · have hlt : nameLen < r.width Char.utf8Size := by omega
      simp only [Token.ofRun, if_neg hr, decide_eq_true hlt]
      rfl

end Threaded
