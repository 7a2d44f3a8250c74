/-!
# Cutting lists

Taking a known beginning off a list, cutting what satisfies a test off its end, and cutting a
list at every occurrence of one item.  Each of the three loses nothing but what it names, which
is what the lemmas say.
-/

namespace Threaded.Text

variable {α : Type}

/-- What comes behind `stem` in a list that begins with it. -/
def behind? [DecidableEq α] : List α → List α → Option (List α)
  | [], cs => some cs
  | _ :: _, [] => none
  | s :: stem, c :: cs => if s = c then behind? stem cs else none

/-- The list without the longest end whose items all satisfy `p`. -/
def dropEnd (p : α → Bool) (cs : List α) : List α :=
  (cs.reverse.dropWhile p).reverse

/-- The parts of a list between the occurrences of `mark`: one more than there are marks. -/
def partsAt [DecidableEq α] (mark : α) : List α → List (List α)
  | [] => [[]]
  | c :: cs =>
    if c = mark then [] :: partsAt mark cs
    else match partsAt mark cs with
      | [] => [[c]]
      | part :: parts => (c :: part) :: parts

/-- What comes behind the stem is what the stem is put in front of. -/
theorem behind?_eq_some_iff [DecidableEq α] {stem cs rest : List α} :
    behind? stem cs = some rest ↔ cs = stem ++ rest := by
  induction stem generalizing cs with
  | nil => simp [behind?]
  | cons s stem ih =>
    cases cs with
    | nil => simp [behind?]
    | cons c cs =>
      by_cases h : s = c
      · subst h
        simp [behind?, ih]
      · have h' : ¬ c = s := fun e => h e.symm
        simp [behind?, h, h']

/-- **What an end is cut off from** begins the list, and an item that fails the test ends it unless
it is empty; all items behind it satisfy the test. -/
theorem dropEnd_eq_iff {p : α → Bool} {cs front : List α} :
    dropEnd p cs = front ↔
      ∃ ends, cs = front ++ ends ∧ (∀ c ∈ ends, p c = true) ∧
        ∀ c ∈ front.getLast?, p c = false := by
  constructor
  · rintro rfl
    refine ⟨(cs.reverse.takeWhile p).reverse, ?_, ?_, ?_⟩
    · rw [dropEnd, ← List.reverse_append, List.takeWhile_append_dropWhile, List.reverse_reverse]
    · intro c hc
      exact List.all_eq_true.1 List.all_takeWhile c (List.mem_reverse.1 hc)
    · intro c hc
      rw [dropEnd, List.getLast?_reverse] at hc
      have hhead := List.head?_dropWhile_not p cs.reverse
      rw [Option.mem_def.1 hc] at hhead
      exact hhead
  · rintro ⟨ends, rfl, hends, hlast⟩
    have hreverse : ∀ c ∈ ends.reverse, p c = true := fun c hc => hends c (List.mem_reverse.1 hc)
    rw [dropEnd, List.reverse_append, List.dropWhile_append_of_pos hreverse]
    rw [← List.head?_reverse] at hlast
    cases hfront : front.reverse with
    | nil => rw [List.dropWhile_nil, ← hfront, List.reverse_reverse]
    | cons c cs =>
      have hc : p c = false := hlast c (by rw [hfront]; rfl)
      rw [List.dropWhile_cons_of_neg (by rw [hc]; exact Bool.false_ne_true), ← hfront,
        List.reverse_reverse]

/-- A list has at least one part. -/
theorem partsAt_ne_nil [DecidableEq α] (mark : α) (cs : List α) : partsAt mark cs ≠ [] := by
  cases cs with
  | nil => simp [partsAt]
  | cons c cs =>
    rw [partsAt]
    split
    · simp
    · split <;> simp

/-- The parts, joined by the mark again, are the list. -/
theorem intercalate_partsAt [DecidableEq α] (mark : α) (cs : List α) :
    [mark].intercalate (partsAt mark cs) = cs := by
  induction cs with
  | nil => rfl
  | cons c cs ih =>
    rw [partsAt]
    split
    · next h =>
      cases hp : partsAt mark cs with
      | nil => exact absurd hp (partsAt_ne_nil mark cs)
      | cons part parts =>
        rw [hp] at ih
        rw [← ih, h]
        simp [List.intercalate, List.intersperse]
    · split
      · next hp => exact absurd hp (partsAt_ne_nil mark cs)
      · next part parts hp =>
        rw [hp] at ih
        rw [← ih]
        cases parts <;> simp [List.intercalate, List.intersperse]

/-- A mark parts what is in front of it from what is behind it. -/
theorem partsAt_append_cons [DecidableEq α] (mark : α) (front behind : List α) :
    partsAt mark (front ++ mark :: behind) = partsAt mark front ++ partsAt mark behind := by
  induction front with
  | nil => simp [partsAt]
  | cons c front ih =>
    rw [List.cons_append, partsAt, ih, partsAt]
    split
    · rfl
    · cases hp : partsAt mark front with
      | nil => exact absurd hp (partsAt_ne_nil mark front)
      | cons part parts => rfl

/-- A list without the mark is its only part. -/
theorem partsAt_of_notMem [DecidableEq α] {mark : α} {cs : List α} (h : mark ∉ cs) :
    partsAt mark cs = [cs] := by
  induction cs with
  | nil => rfl
  | cons c cs ih =>
    obtain ⟨hne, hmem⟩ := not_or.1 (mt List.mem_cons.2 h)
    rw [partsAt, if_neg (Ne.symm hne), ih hmem]

end Threaded.Text
