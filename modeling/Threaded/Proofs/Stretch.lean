import Threaded.Proofs.Conditional

/-!
# A stretch of a word

A word may lie inside a longer one, slot for slot: it is a **stretch** of it.  Branches are relative,
and those of a word that passes the check land on its slots or right behind the last of them.  So
the stretch does in the longer word what the word does alone, and when it is done the longer word
goes on right behind it (`Stretch.goesOn_iff`).  At the end of the longer word there is nothing to
go on with (`Stretch.goesOn_last_iff`).

The two runs go step by step, except that the word alone has a frame to take away when it is done.
Such a pair of runs comes to the same end (`Thread.endsIn_iff_of_steps`).
-/

namespace Threaded

/-! ## Runs that go step by step -/

/-- Both steps lead to threads that are related, or both are the same end. -/
inductive Step.Follows (Rel : Thread → Thread → Prop) : Step → Step → Prop
  | next {t t' : Thread} (h : Rel t t') : Follows Rel (.next t) (.next t')
  | done (r : Except Error Unit) (m : Machine) : Follows Rel (.done r m) (.done r m)

/-- Threads come to the same end if they go step by step, or the second may catch up with the first
in one step. -/
theorem Thread.endsIn_iff_of_steps {Rel : Thread → Thread → Prop}
    (hstep : ∀ t t', Rel t t' → t'.step = .next t ∨ t.step.Follows Rel t'.step)
    {t t' : Thread} (h : Rel t t') (o : Ending) : t.EndsIn o ↔ t'.EndsIn o := by
  constructor
  · rintro ⟨fuel, hfuel⟩
    induction fuel generalizing t t' with
    | zero => cases hfuel
    | succ fuel ih =>
      rcases hstep t t' h with hcatch | hfollows
      · rw [endsIn_iff, hcatch]
        exact ⟨fuel + 1, hfuel⟩
      · rw [endsIn_iff]
        rw [finish] at hfuel
        generalize t.step = s, t'.step = s' at hfollows hfuel ⊢
        cases hfollows with
        | next hrel => exact ih hrel hfuel
        | done r m => exact (Option.some.inj hfuel).symm
  · rintro ⟨fuel, hfuel⟩
    induction fuel generalizing t t' with
    | zero => cases hfuel
    | succ fuel ih =>
      rw [finish] at hfuel
      rcases hstep t t' h with hcatch | hfollows
      · rw [hcatch] at hfuel
        exact ⟨fuel, hfuel⟩
      · rw [endsIn_iff]
        generalize t.step = s, t'.step = s' at hfollows hfuel ⊢
        cases hfollows with
        | next hrel => exact ih hrel hfuel
        | done r m => exact (Option.some.inj hfuel).symm

/-! ## Stretches -/

/-- The slots of `part` are those of `whole` from the slot `k` on. -/
structure Stretch (part whole : Array Ref) (k : Nat) : Prop where
  slot : ∀ i < part.size, whole[k + i]? = part[i]?
  fits : k + part.size ≤ whole.size
  size : whole.size < 2 ^ 63 - 1

namespace Stretch

variable {part whole : Array Ref} {k ip : Nat} {m : Machine}

/-- A word with other slots in front of it and behind it. -/
theorem of_toList {front : List Ref} (behind : List Ref) (hsize : whole.size < 2 ^ 63 - 1)
    (h : whole.toList = front ++ (part.toList ++ behind)) : Stretch part whole front.length where
  slot i hi := by
    rw [← Array.getElem?_toList, ← Array.getElem?_toList, h,
      List.getElem?_append_right (Nat.le_add_right _ _), Nat.add_sub_cancel_left,
      List.getElem?_append_left (by rwa [Array.length_toList])]
  fits := by
    rw [← Array.length_toList, ← Array.length_toList, h, List.length_append, List.length_append]
    omega
  size := hsize

/-- **A branch of the part goes to the same slot in the whole.** -/
theorem target_eq (h : Stretch part whole k) {offset : Cell} {t : Nat} (hip : ip < part.size)
    (ht : Jump.target ip offset part.size = .ok t) :
    Jump.target (k + ip) offset whole.size = .ok (k + t) ∧ t ≤ part.size := by
  have hfits := h.fits
  have hsize := h.size
  rw [Jump.target_eq hip (by omega)] at ht
  split at ht
  · next hinside =>
    cases ht
    refine ⟨?_, by omega⟩
    rw [Jump.target_eq (by omega) hsize, if_pos (by omega)]
    congr 1
    omega
  · simp at ht

/-- The first thread is at a slot of the stretch; the second is at that slot of the part, and has
what comes behind the stretch still to go. -/
inductive Inside (part whole : Array Ref) (k : Nat) : Thread → Thread → Prop
  | mk (m : Machine) (top : List Frame) {ip : Nat} (hip : ip ≤ part.size)
    (hpart : Jump.check m.dict part = .ok ()) :
    Inside part whole k ⟨m, top ++ [.code whole (k + ip) 0]⟩
      ⟨m, top ++ [.code part ip 0, .code whole (k + part.size) 0]⟩

/-- What is opened on top is the same for both, and so is what goes wrong. -/
theorem follows_goOn {r : Except Error (List Frame) × Machine} (hip : ip ≤ part.size)
    (hpart : Jump.check r.2.dict part = .ok ()) :
    (Thread.goOn r [.code whole (k + ip) 0]).Follows (Inside part whole k)
      (Thread.goOn r [.code part ip 0, .code whole (k + part.size) 0]) := by
  obtain ⟨e | frames, m⟩ := r
  · exact .done _ m
  · exact .next (.mk m frames hip hpart)

/-- A branch of the part is followed in both. -/
theorem follows_jump (h : Stretch part whole k) {r : Ref} {e : Entry} {offset : Cell}
    (hip : ip < part.size) (hpart : Jump.check m.dict part = .ok ()) (hr : part[ip]? = some r)
    (he : m.dict.get? r = some e) (ho : e.offset? = some offset) :
    (Thread.goOn (Thread.jump whole (k + ip) 0 offset, m) []).Follows (Inside part whole k)
      (Thread.goOn (Thread.jump part ip 0 offset, m) [.code whole (k + part.size) 0]) := by
  obtain ⟨e', he', hjump⟩ := Jump.checkSlot_eq_ok_iff.1 (Jump.check_eq_ok_iff.1 hpart ip r hr)
  obtain rfl : e = e' := Option.some.inj (he.symm.trans he')
  obtain ⟨t, ht⟩ := hjump offset ho
  obtain ⟨hwhole, hle⟩ := h.target_eq hip ht
  unfold Thread.jump
  rw [ht, hwhole]
  exact .next (.mk m [] hle hpart)

/-- **An entry acts in the stretch as it does in the part.** -/
theorem follows_enter (h : Stretch part whole k) {r : Ref} {e : Entry} (hip : ip < part.size)
    (hpart : Jump.check m.dict part = .ok ()) (hr : part[ip]? = some r)
    (he : m.dict.get? r = some e) :
    (Thread.enter m whole (k + ip) 0 r [] e).Follows (Inside part whole k)
      (Thread.enter m part ip 0 r [.code whole (k + part.size) 0] e) := by
  cases e with
  | literal value => exact follows_goOn hip hpart
  | primitive name action =>
    exact follows_goOn hip ((Machine.Grows.call m r action).dict.check_eq_ok hpart)
  | compound w =>
    rw [Thread.enter, Thread.enter]
    split
    · exact .done _ m
    · exact .next (.mk m [_] hip hpart)
  | branch offset => exact h.follows_jump hip hpart hr he rfl
  | zbranch offset =>
    have hdict : (m.perform Bench.pop).2.dict = m.dict := rfl
    rw [Thread.enter, Thread.enter]
    generalize m.perform Bench.pop = popped at hdict ⊢
    obtain ⟨e | n, m₁⟩ := popped <;> dsimp only at hdict ⊢
    · exact .done _ m₁
    · rw [← hdict] at hpart he
      split
      · exact h.follows_jump hip hpart hr he rfl
      · exact .next (.mk m₁ [] hip hpart)

/-- **The runs go step by step**, and where the stretch ends the part is done. -/
theorem step_inside (h : Stretch part whole k) (t t' : Thread) (hinside : Inside part whole k t t') :
    t'.step = .next t ∨ t.step.Follows (Inside part whole k) t'.step := by
  obtain ⟨m, top, hip, hpart⟩ := hinside
  cases top with
  | cons f top =>
    -- below the first frame nothing is looked at
    have hdev : Machine.Develops (fun _ => True) m (Thread.step ⟨m, f :: top⟩).machine :=
      Thread.step_develops ⟨m, f :: top⟩
    rw [Thread.step_append, Thread.step_append]
    right
    generalize Thread.step ⟨m, f :: top⟩ = s at hdev ⊢
    cases s with
    | next t => exact .next (.mk t.machine t.frames hip (hdev.grows.dict.check_eq_ok hpart))
    | done r m₁ => exact .done r m₁
  | nil =>
    rcases Nat.lt_or_eq_of_le hip with hlt | rfl
    · right
      obtain ⟨r, hr⟩ : ∃ r, part[_]? = some r := ⟨_, Array.getElem?_eq_getElem hlt⟩
      have hr' := (h.slot _ hlt).trans hr
      obtain ⟨e, he, _⟩ := Jump.checkSlot_eq_ok_iff.1 (Jump.check_eq_ok_iff.1 hpart _ r hr)
      have hentry : m.dict.entry r = .ok e := by
        unfold Dict.entry
        rw [he]
      unfold Thread.step
      simp only [List.nil_append, hr, hr', hentry]
      exact h.follows_enter hlt hpart hr he
    · left
      unfold Thread.step
      simp only [List.nil_append, Array.getElem?_eq_none (Nat.le_refl part.size)]

/-- **To go on in a stretch is to go on in the part, and then behind the stretch.** -/
theorem goesOn_iff (h : Stretch part whole k) (hpart : Jump.check m.dict part = .ok ())
    (hip : ip ≤ part.size) {o : Ending} :
    goesOn whole (k + ip) m o ↔ (goesOn part ip).andThen (goesOn whole (k + part.size)) m o :=
  (Thread.endsIn_iff_of_steps h.step_inside (.mk m [] hip hpart) o).trans
    (@Behaviour.ofFrames_append m o [.code part ip 0] [.code whole (k + part.size) 0])

/-- A word ends as its last stretch does. -/
theorem goesOn_last_iff (h : Stretch part whole k) (hpart : Jump.check m.dict part = .ok ())
    (hip : ip ≤ part.size) (hlast : k + part.size = whole.size) {o : Ending} :
    goesOn whole (k + ip) m o ↔ goesOn part ip m o := by
  rw [h.goesOn_iff hpart hip, hlast]
  exact (Behaviour.andThen_congr fun m₁ _ => goesOn_size).trans Behaviour.andThen_done

end Stretch

end Threaded
