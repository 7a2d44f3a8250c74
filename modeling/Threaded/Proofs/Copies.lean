import Threaded.Proofs.Stretch

/-!
# Copies of a word

A word is a copy of another if its slots hold the same entries.  An entry with a name must be the
very same one, since a service may push the reference that it is called through; a literal or a
branch may be another one with the same number (`Copies`).

The runs of the two go step by step.  Below its first frame a thread looks at nothing, and when the
frame of the word is the first, the two find the same entry (`Copies.step_follows`).  So they come
to the same end with the same fuel, from every bench (`Copies.run_eq`).
-/

namespace Threaded

/-- Threads that go step by step come to the same end with the same fuel. -/
theorem Thread.finish_eq_of_follows {Rel : Thread → Thread → Prop}
    (hstep : ∀ t t', Rel t t' → t.step.Follows Rel t'.step) {t t' : Thread} (h : Rel t t')
    (fuel : Nat) : t.finish fuel = t'.finish fuel := by
  induction fuel generalizing t t' with
  | zero => rfl
  | succ fuel ih =>
    have hfollows := hstep t t' h
    rw [finish, finish]
    generalize t.step = s, t'.step = s' at hfollows ⊢
    cases hfollows with
    | next hrel => exact ih hrel
    | done r m => rfl

/-- The slots of the second word hold the same entries as those of the first, and the same
references to what has a name. -/
structure Copies (d : Dict) (body body' : Array Ref) : Prop where
  size : body'.size = body.size
  slot : ∀ (k : Nat) (r : Ref), body[k]? = some r → ∃ e r', d.get? r = some e ∧ body'[k]? = some r' ∧
    d.get? r' = some e ∧ (e.name? ≠ none → r' = r)

namespace Copies

variable {d d' : Dict} {body body' : Array Ref} {m : Machine} {ip : Nat}

/-- Copies stay copies when entries are added. -/
theorem of_extends (h : Copies d body body') (hgrows : d.Extends d') : Copies d' body body' where
  size := h.size
  slot k r hr := by
    obtain ⟨e, r', he, hr', he', hsame⟩ := h.slot k r hr
    exact ⟨e, r', hgrows.get? he, hr', hgrows.get? he', hsame⟩

/-- A slot of a copy has a slot that it was copied from. -/
theorem exists_slot (h : Copies d body body') {k : Nat} {r' : Ref} (hr' : body'[k]? = some r') :
    ∃ r e, body[k]? = some r ∧ d.get? r = some e ∧ d.get? r' = some e := by
  have hk : k < body.size := by
    rw [← h.size]
    exact (Array.getElem?_eq_some_iff.1 hr').1
  have hr : body[k]? = some body[k] := Array.getElem?_eq_getElem hk
  obtain ⟨e, q, he, hq, he', _⟩ := h.slot k _ hr
  obtain rfl : q = r' := Option.some.inj (hq.symm.trans hr')
  exact ⟨_, e, hr, he, he'⟩

/-- **A copy passes the check** if the word does. -/
theorem check_eq_ok (h : Copies d body body') (hc : Jump.check d body = .ok ()) :
    Jump.check d body' = .ok () := by
  rw [Jump.check_eq_ok_iff] at hc ⊢
  intro k r' hr'
  obtain ⟨r, e, hr, he, he'⟩ := h.exists_slot hr'
  obtain ⟨e₁, he₁, hjump⟩ := Jump.checkSlot_eq_ok_iff.1 (hc k r hr)
  obtain rfl : e = e₁ := Option.some.inj (he.symm.trans he₁)
  rw [h.size]
  exact Jump.checkSlot_eq_ok_iff.2 ⟨e, he', hjump⟩

/-- The threads differ at most in the last frame, which goes on in the word or in its copy. -/
inductive Rel (body body' : Array Ref) : Thread → Thread → Prop
  | code (m : Machine) (top : List Frame) (ip : Nat) (h : Copies m.dict body body') :
    Rel body body' ⟨m, top ++ [.code body ip 0]⟩ ⟨m, top ++ [.code body' ip 0]⟩
  | same (t : Thread) : Rel body body' t t

/-- Where one word goes on, so does its copy. -/
theorem follows_goOn {r : Except Error (List Frame) × Machine} (h : Copies r.2.dict body body') :
    (Thread.goOn r [.code body ip 0]).Follows (Rel body body')
      (Thread.goOn r [.code body' ip 0]) := by
  obtain ⟨e | frames, m⟩ := r
  · exact .done _ m
  · exact .next (.code m frames ip h)

/-- A branch goes to the same slot in words of the same size. -/
theorem follows_jump (h : Copies m.dict body body') (offset : Cell) :
    (Thread.goOn (Thread.jump body ip 0 offset, m) []).Follows (Rel body body')
      (Thread.goOn (Thread.jump body' ip 0 offset, m) []) := by
  unfold Thread.jump
  rw [h.size]
  cases Jump.target ip offset body.size with
  | error e => exact .done _ m
  | ok t => exact .next (.code m [] t h)

/-- **An entry acts in the copy as it does in the word.** -/
theorem follows_enter (h : Copies m.dict body body') {r r' : Ref} {e : Entry}
    (hsame : e.name? ≠ none → r' = r) :
    (Thread.enter m body ip 0 r [] e).Follows (Rel body body')
      (Thread.enter m body' ip 0 r' [] e) := by
  cases e with
  | literal value => exact follows_goOn h
  | primitive name action =>
    obtain rfl := hsame (Option.some_ne_none _)
    exact follows_goOn (h.of_extends (Machine.Grows.call m r' action).dict)
  | compound w =>
    rw [Thread.enter, Thread.enter]
    split
    · exact .done _ m
    · exact .next (.code m [_] (ip + 1) h)
  | branch offset => exact h.follows_jump offset
  | zbranch offset =>
    have hdict : (m.perform Bench.pop).2.dict = m.dict := rfl
    rw [Thread.enter, Thread.enter]
    generalize m.perform Bench.pop = popped at hdict ⊢
    obtain ⟨e | n, m₁⟩ := popped <;> dsimp only at hdict ⊢
    · exact .done _ m₁
    · rw [← hdict] at h
      split
      · exact h.follows_jump offset
      · exact .next (.code m₁ [] (ip + 1) h)

/-- **The runs go step by step.** -/
theorem step_follows (t t' : Thread) (hrel : Rel body body' t t') :
    t.step.Follows (Rel body body') t'.step := by
  cases hrel with
  | same =>
    cases t.step with
    | next t₁ => exact .next (.same t₁)
    | done r m => exact .done r m
  | code m top ip h =>
    cases top with
    | cons f top =>
      have hdev : Machine.Develops (fun _ => True) m (Thread.step ⟨m, f :: top⟩).machine :=
        Thread.step_develops ⟨m, f :: top⟩
      rw [Thread.step_append, Thread.step_append]
      generalize Thread.step ⟨m, f :: top⟩ = s at hdev ⊢
      cases s with
      | next t => exact .next (.code t.machine t.frames ip (h.of_extends hdev.grows.dict))
      | done r m₁ => exact .done r m₁
    | nil =>
      rw [List.nil_append, List.nil_append]
      cases hr : body[ip]? with
      | none =>
        have hr' : body'[ip]? = none := by
          rw [Array.getElem?_eq_none_iff, h.size]
          exact Array.getElem?_eq_none_iff.1 hr
        unfold Thread.step
        simp only [hr, hr']
        exact .next (.same ⟨m, []⟩)
      | some r =>
        obtain ⟨e, r', he, hr', he', hsame⟩ := h.slot ip r hr
        rw [step_of_get? hr he, step_of_get? hr' he']
        exact h.follows_enter hsame

/-- **A copy runs as the word does**, with the same fuel to the same end. -/
theorem run_eq {w w' : Word} (h : Copies m.dict w.body w'.body)
    (hc : Jump.check m.dict w.body = .ok ()) (fuel : Nat) : m.run fuel w' = m.run fuel w := by
  unfold Machine.run Machine.framesOf
  rw [hc, h.check_eq_ok hc]
  exact (Thread.finish_eq_of_follows step_follows (.code m [] 0 h) fuel).symm

end Copies

end Threaded
