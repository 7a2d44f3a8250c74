import Mathlib.Data.List.Sort
import Threaded.Proofs.Names

/-!
# Maximal runs

What the runs of a sequence are can be said without cutting it: a run is a stretch of it that is not
empty, holds no separator, and lies between separators or the ends of the sequence
(`Run.Between`).  The cut finds all of these, from left to right, and nothing else
(`maximalRuns_iff`).
-/

namespace Threaded.Text

variable {α : Type} {size : α → Nat} {isSeparator : α → Bool} {start : Nat}
  {l front behind : List α} {r : Run α} {rs : List (Run α)}

/-- The extents of two lists add up. -/
theorem extent_append (size : α → Nat) (l l' : List α) :
    extent size (l ++ l') = extent size l + extent size l' := by
  induction l with
  | nil => rw [List.nil_append, extent_nil, Nat.zero_add]
  | cons a l ih => rw [List.cons_append, extent_cons, extent_cons, ih, Nat.add_assoc]

/-- The run is all that lies between what is in front of it and what is behind it, in a sequence
that begins at position `start`. -/
structure Run.Between (size : α → Nat) (isSeparator : α → Bool) (start : Nat) (l : List α)
    (r : Run α) (front behind : List α) : Prop where
  split : l = front ++ (r.items ++ behind)
  pos : r.pos = start + extent size front
  nonempty : r.items ≠ []
  inside : ∀ a ∈ r.items, isSeparator a = false
  before : ∀ a, front.getLast? = some a → isSeparator a = true
  after : ∀ a, behind.head? = some a → isSeparator a = true

/-- The run is a maximal stretch of the sequence without a separator. -/
def Run.Maximal (size : α → Nat) (isSeparator : α → Bool) (start : Nat) (l : List α) (r : Run α) :
    Prop :=
  ∃ front behind, r.Between size isSeparator start l front behind

/-- These are the maximal runs of a sequence, from left to right. -/
structure MaximalRuns (size : α → Nat) (isSeparator : α → Bool) (start : Nat) (l : List α)
    (rs : List (Run α)) : Prop where
  mem_iff : ∀ r, r ∈ rs ↔ r.Maximal size isSeparator start l
  sorted : rs.Pairwise fun r q => r.pos < q.pos

/-! ## The cut finds them -/

/-- Where a sequence starts does not matter to the items of its runs. -/
theorem map_items_runs (start : Nat) (l : List α) :
    (runs size isSeparator start l).map Run.items = (runs size isSeparator 0 l).map Run.items := by
  have h := @runs_add _ size isSeparator start l 0
  rw [Nat.add_zero] at h
  rw [h, List.map_map]
  rfl

/-- Separators in front only move the start. -/
theorem runs_separators_append (l : List α) :
    (gap : List α) → (∀ a ∈ gap, isSeparator a = true) → (start : Nat) →
      runs size isSeparator start (gap ++ l) = runs size isSeparator (start + extent size gap) l
  | [], _, _ => rfl
  | a :: gap, h, start => by
    have ih := runs_separators_append l gap (fun b hb => h b (List.mem_cons_of_mem _ hb))
      (start + size a)
    rw [List.cons_append, runs_cons_of_separator (h a List.mem_cons_self), ih, extent_cons,
      Nat.add_assoc]

/-- Items without a separator are a run if a separator or nothing is behind them. -/
theorem runs_append_of_not_separator (hsize : ∀ a, 0 < size a) {items : List α} (hne : items ≠ [])
    (hitems : ∀ a ∈ items, isSeparator a = false)
    (hafter : ∀ a, behind.head? = some a → isSeparator a = true) (pos : Nat) :
    runs size isSeparator pos (items ++ behind) =
      ⟨pos, items⟩ :: runs size isSeparator (pos + extent size items) behind := by
  have halone := runs_eq_singleton size items hne hitems pos
  cases behind with
  | nil => rw [List.append_nil, halone, runs_nil]
  | cons b behind =>
    have hb : isSeparator b = true := hafter b rfl
    rw [runs_append_separator hb (hsize b), halone, runs_cons_of_separator hb,
      List.singleton_append]

/-- **A maximal run parts the runs** in front of it from those behind it. -/
theorem Run.Between.runs_eq (hsize : ∀ a, 0 < size a)
    (h : r.Between size isSeparator start l front behind) :
    runs size isSeparator start l =
      runs size isSeparator start front ++ r :: runs size isSeparator (r.stop size) behind := by
  obtain ⟨pos, items⟩ := r
  obtain ⟨rfl, rfl, hne, hitems, hbefore, hafter⟩ := h
  have hrun := runs_append_of_not_separator hsize hne hitems hafter
  rcases List.eq_nil_or_concat front with rfl | ⟨front, b, rfl⟩
  · rw [List.nil_append, hrun]
    rfl
  · have hb : isSeparator b = true := hbefore b (by simp)
    have hfront := runs_append_separator hb (hsize b) [] front start
    rw [runs_nil, List.append_nil] at hfront
    rw [List.concat_eq_append, hfront, List.append_assoc, List.singleton_append,
      runs_append_separator hb (hsize b), hrun, extent_append, extent_cons, extent_nil,
      Nat.add_zero, Nat.add_assoc]
    rfl

/-- **A run is maximal.** -/
theorem maximal_of_mem_runs (hsize : ∀ a, 0 < size a) (h : r ∈ runs size isSeparator start l) :
    r.Maximal size isSeparator start l := by
  induction l using induction_on_separators isSeparator generalizing start with
  | last l hl =>
    rw [runs_of_not_separator _ _ hl] at h
    split at h
    · cases h
    · next hne =>
      obtain rfl := List.mem_singleton.1 h
      exact ⟨[], [], (List.append_nil l).symm, rfl, hne, hl, nofun, nofun⟩
  | cut front b behind hfront hb ih =>
    rw [runs_append_separator hb (hsize b), runs_of_not_separator _ _ hfront, List.mem_append] at h
    rcases h with h | h
    · split at h
      · cases h
      · next hne =>
        obtain rfl := List.mem_singleton.1 h
        refine ⟨[], b :: behind, rfl, rfl, hne, hfront, nofun, ?_⟩
        rintro _ ⟨⟩
        exact hb
    · obtain ⟨front', behind', hsplit, hpos, hne, hitems, hbefore, hafter⟩ := ih h
      refine ⟨front ++ b :: front', behind', by simp [hsplit], ?_, hne, hitems, ?_, hafter⟩
      · rw [hpos, extent_append, extent_cons]
        omega
      · intro a ha
        rw [List.getLast?_append, List.getLast?_cons, Option.some_or, Option.some.injEq] at ha
        cases hlast : front'.getLast? with
        | none =>
          rw [hlast] at ha
          exact ha ▸ hb
        | some c =>
          rw [hlast] at ha
          exact ha ▸ hbefore c hlast

/-- **The runs are the maximal stretches without a separator.** -/
theorem mem_runs_iff (hsize : ∀ a, 0 < size a) :
    r ∈ runs size isSeparator start l ↔ r.Maximal size isSeparator start l := by
  refine ⟨maximal_of_mem_runs hsize, ?_⟩
  rintro ⟨front, behind, h⟩
  rw [h.runs_eq hsize]
  exact List.mem_append_right _ List.mem_cons_self

/-- There is a separator between a run and the next. -/
theorem pairwise_runs (hsize : ∀ a, 0 < size a) (start : Nat) (l : List α) :
    (runs size isSeparator start l).Pairwise fun r q => r.stop size < q.pos := by
  induction l using induction_on_separators isSeparator generalizing start with
  | last l hl =>
    rw [runs_of_not_separator _ _ hl]
    split
    · exact .nil
    · exact List.pairwise_singleton _ _
  | cut front b behind hfront hb ih =>
    rw [runs_append_separator hb (hsize b), runs_of_not_separator _ _ hfront]
    split
    · exact ih _
    · refine List.pairwise_cons.2 ⟨fun q hq => ?_, ih _⟩
      have hle := (stop_le_of_mem_runs hq).1
      have hpos := hsize b
      show start + extent size front < q.pos
      omega

/-- **The runs of a sequence are its maximal runs**, from left to right. -/
theorem maximalRuns_iff (hsize : ∀ a, 0 < size a) :
    MaximalRuns size isSeparator start l rs ↔ rs = runs size isSeparator start l := by
  have hsorted : (runs size isSeparator start l).Pairwise fun r q => r.pos < q.pos :=
    (pairwise_runs hsize start l).imp fun h => Nat.lt_of_le_of_lt (Nat.le_add_right _ _) h
  constructor
  · rintro ⟨hmem, hpairwise⟩
    have : Std.Irrefl fun r q : Run α => r.pos < q.pos := ⟨fun r => Nat.lt_irrefl r.pos⟩
    have : Std.Antisymm fun r q : Run α => r.pos < q.pos :=
      ⟨fun r q h h' => absurd h (Nat.lt_asymm h')⟩
    exact hpairwise.eq_of_mem_iff hsorted fun r => (hmem r).trans (mem_runs_iff hsize).symm
  · rintro rfl
    exact ⟨fun r => mem_runs_iff hsize, hsorted⟩

end Threaded.Text
