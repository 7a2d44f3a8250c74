import Threaded.Proofs.AppendOnly
import Threaded.Proofs.EarlyBinding
import Threaded.Proofs.Together

/-!
# What a line leaves behind is not seen

A line that does not compile is not taken back: what it has registered stays in the ledger.  From
then on everything has another reference than it would have had, and every word and compound that
is made later holds other references.  None of this is seen (`unobservable`): let a host with the
standard set take whatever turns, and put in between an extra one that does not compile, or that
compiles a word which is never run; then every other turn has the same view as without it.

The sessions with and without the extra turn are alike along a renaming, which is at first that of
every old reference to itself and grows as the two sessions register their entries.  A turn keeps
them alike (`Session.Alike.take`), so all turns do (`Session.Alike.views_eq`).
-/

namespace Threaded

open Machine (Together Reachable)

/-- A turn that names no reference, and that binds primitives of the standard set at most. -/
def Turn.Plain : Turn → Prop
  | .obey c => c.Plain
  | .keep _ _ | .run _ | .ask _ => True

/-- A plain command binds operations of the standard set. -/
theorem Command.Plain.binds {c : Command} (h : c.Plain) : c.Binds Primitive.Standard := by
  cases c with
  | run => exact h.elim
  | _ => exact h

namespace Session

/-! ## Sessions that are alike -/

/-- Sessions of machines that are alike, with words in their slots that stand for one another; slots
that are hidden may hold anything. -/
structure Alike (R : Renaming) (hidden : Nat → Prop) (s s' : Session) : Prop where
  machine : s.machine.Alike R s'.machine
  kept : ∀ slot, ¬ hidden slot → Option.Rel (Word.Alike R) (s.kept slot) (s'.kept slot)

/-- The same view, and sessions that are alike once more. -/
def TakesAlike (hidden : Nat → Prop) (o o' : View × Session) : Prop :=
  o.1 = o'.1 ∧ ∃ R, Alike R hidden o.2 o'.2

namespace Alike

variable {R R' : Renaming} {hidden : Nat → Prop} {s s' : Session} {m m' : Machine}

/-- The words in the slots still stand for one another. -/
theorem with_machine (h : Alike R hidden s s') (hR : R.Within R') (hm : m.Alike R' m') :
    Alike R' hidden { s with machine := m } { s' with machine := m' } := by
  refine ⟨hm, fun slot hslot => ?_⟩
  have hkept := h.kept slot hslot
  dsimp only
  generalize s.kept slot = w, s'.kept slot = w' at hkept ⊢
  cases hkept with
  | none => exact .none
  | some hw => exact .some (hw.mono hR)

/-- Words that stand for one another are kept alike. -/
theorem keep (h : Alike R hidden s s') (slot : Nat) {w w' : Option Word}
    (hw : Option.Rel (Word.Alike R) w w') : Alike R hidden (s.keep slot w) (s'.keep slot w') := by
  cases hw with
  | none => exact h
  | some hw =>
    refine ⟨h.machine, fun k hk => ?_⟩
    simp only [Session.keep]
    split
    · exact .some hw
    · exact h.kept k hk

/-- An answer that is shown the same gives the same view. -/
theorem takesAlike {α β : Type} {rel : Renaming → α → β → Prop} {f : α → Answer} {g : β → Answer}
    {o : Except Error α × Machine} {o' : Except Error β × Machine} (h : Alike R hidden s s')
    (ho : Together R rel o o') (hfg : ∀ R' a b, rel R' a b → f a = g b) :
    TakesAlike hidden (o.2.view (o.1.map f), { s with machine := o.2 })
      (o'.2.view (o'.1.map g), { s' with machine := o'.2 }) := by
  cases ho with
  | @ok R' _ _ a b hR hm hab =>
    refine ⟨?_, R', h.with_machine hR hm⟩
    simp only [Except.map, hfg R' a b hab, hm.view_eq]
  | error hR hm e => exact ⟨hm.view_eq _, _, h.with_machine hR hm⟩

/-- **A turn has the same view**, and leaves sessions that are alike. -/
theorem take (h : Alike R hidden s s') {t : Turn} (ht : t.Plain)
    (hseen : ∀ slot, t = .run slot → ¬ hidden slot) (fuel : Nat) :
    Option.Rel (TakesAlike hidden) (s.take fuel t) (s'.take fuel t) := by
  cases t with
  | obey c =>
    have hobey := Machine.obey_together h.machine ht fuel
    exact rel_map hobey fun o o' ho => h.takesAlike ho fun _ _ _ heq => heq
  | keep slot line =>
    have hcompile := Machine.compile_together h.machine line
    simp only [Session.take]
    generalize s.machine.compile line = o, s'.machine.compile line = o' at hcompile ⊢
    cases hcompile with
    | @error R' _ _ hR hm e => exact .some ⟨hm.view_eq _, R', h.with_machine hR hm⟩
    | @ok R' _ _ w w' hR hm hw =>
      have hanswer : (Reply.word w).answer = (Reply.word w').answer := by
        cases hw with
        | none => rfl
        | some hw => exact congrArg (fun n => Answer.word (some n)) hw.body.length_eq
      refine .some ⟨?_, R', (h.with_machine hR hm).keep slot hw⟩
      rw [hanswer]
      exact hm.view_eq _
  | run slot =>
    have hkept := h.kept slot (hseen slot rfl)
    simp only [Session.take]
    generalize s.kept slot = w, s'.kept slot = w' at hkept ⊢
    cases hkept with
    | none => exact .some ⟨h.machine.view_eq _, R, h⟩
    | some hw =>
      exact rel_map (Machine.run_together h.machine hw fuel) fun o o' ho =>
        h.takesAlike ho fun _ _ _ _ => rfl
  | ask q =>
    refine .some ⟨?_, R, h⟩
    rw [h.machine.ask_eq q]
    exact h.machine.view_eq _

end Alike

/-- What is seen of a turn and then of the others. -/
theorem views_cons (fuel : Nat) (s : Session) (t : Turn) (rest : List Turn) :
    s.views fuel (t :: rest) =
      (s.take fuel t).bind fun o => (o.2.views fuel rest).map (o.1 :: ·) := by
  unfold views
  rw [play]
  cases s.take fuel t with
  | none => rfl
  | some taken => simp [Option.map_map, Function.comp_def]

/-- **Sessions that are alike look the same**, whatever turns they take.  The renaming grows on the
way. -/
theorem Alike.views_eq {hidden : Nat → Prop} (fuel : Nat) : (turns : List Turn) →
    {R : Renaming} → {s s' : Session} → Alike R hidden s s' → (∀ t ∈ turns, t.Plain) →
      (∀ slot, .run slot ∈ turns → ¬ hidden slot) → s.views fuel turns = s'.views fuel turns
  | [], _, _, _, _, _, _ => rfl
  | t :: rest, R, s, s', h, hplain, hseen => by
    have htake := h.take (hplain t List.mem_cons_self)
      (fun slot ht => hseen slot (ht ▸ List.mem_cons_self)) fuel
    rw [views_cons, views_cons]
    generalize s.take fuel t = o, s'.take fuel t = o' at htake ⊢
    cases htake with
    | none => rfl
    | @some o o' htaken =>
      obtain ⟨hview, R', halike⟩ := htaken
      have ih := halike.views_eq fuel rest (fun t ht => hplain t (List.mem_cons_of_mem _ ht))
        fun slot hslot => hseen slot (List.mem_cons_of_mem _ hslot)
      simp only [Option.bind_some, hview, ih]

/-! ## Sessions with the standard set -/

/-- A session of a machine that has the standard set at most, with words that can be run. -/
structure Sound (s : Session) : Prop where
  machine : Reachable (Command.Binds Primitive.Standard) s.machine
  kept : ∀ slot w, s.kept slot = some w → s.machine.Accepts w

namespace Sound

variable {s s' : Session} {m : Machine}

/-- A session that has not begun is sound. -/
theorem start (limits : Limits) : Sound (start limits) where
  machine := .boot limits
  kept _ _ h := nomatch h

/-- A command leaves the words in the slots good. -/
theorem obey (h : Sound s) {c : Command} (hc : c.Binds Primitive.Standard) {fuel : Nat}
    {r : Except Error Reply} (hobey : s.machine.obey fuel c = some (r, m)) :
    Sound { s with machine := m } where
  machine := .obey fuel h.machine hc hobey
  kept slot w hw := (Machine.obey_grows hobey).dict.check_eq_ok (h.kept slot w hw)

/-- A session stays sound when a word is kept that the machine accepts. -/
theorem keep (h : Sound s) (slot : Nat) {w : Option Word}
    (hw : ∀ v, w = some v → s.machine.Accepts v) : Sound (s.keep slot w) := by
  cases w with
  | none => exact h
  | some w =>
    refine ⟨h.machine, fun k v hv => ?_⟩
    simp only [Session.keep] at hv
    split at hv
    · exact hw v hv
    · exact h.kept k v hv

/-- **A turn keeps a session sound.** -/
theorem take (h : Sound s) {t : Turn} (ht : t.Plain) {fuel : Nat} {v : View}
    (htake : s.take fuel t = some (v, s')) : Sound s' := by
  cases t with
  | obey c =>
    obtain ⟨⟨r, m⟩, hobey, heq⟩ := Option.map_eq_some_iff.1 htake
    cases heq
    exact h.obey ht.binds hobey
  | keep slot line =>
    have hobey : s.machine.obey 0 (.compile line) =
      some (.of .word (s.machine.compile line)) := rfl
    have hsound := h.obey (.of_primitives_eq_nil rfl) hobey
    have haccepts := @Machine.check_of_compile s.machine
    simp only [Session.take] at htake
    split at htake
    · next w m hc =>
      cases htake
      have hsound : Sound { s with machine := m } := by rwa [hc] at hsound
      refine hsound.keep slot fun v hv => ?_
      subst hv
      exact haccepts hc
    · next e m hc =>
      cases htake
      rwa [hc] at hsound
  | run slot =>
    simp only [Session.take] at htake
    split at htake
    · next w hw =>
      obtain ⟨⟨r, m⟩, hrun, heq⟩ := Option.map_eq_some_iff.1 htake
      cases heq
      have hobey : s.machine.obey fuel (.run w) = some (.ofUnit (r, m)) := by
        rw [Machine.obey, hrun]
        rfl
      exact h.obey (.of_primitives_eq_nil rfl) hobey
    · cases htake
      exact h
  | ask q =>
    cases htake
    exact h

/-- **Turns keep a session sound.** -/
theorem play {fuel : Nat} : (turns : List Turn) → {s s' : Session} → {vs : List View} → Sound s →
    (∀ t ∈ turns, t.Plain) → s.play fuel turns = some (vs, s') → Sound s'
  | [], _, _, _, h, _, hplay => by
    cases hplay
    exact h
  | t :: rest, s, s', vs, h, hplain, hplay => by
    rw [Session.play] at hplay
    split at hplay
    · simp at hplay
    · next v s₁ htake =>
      obtain ⟨⟨vs', s₂⟩, hrest, heq⟩ := Option.map_eq_some_iff.1 hplay
      cases heq
      exact play rest (h.take (hplain t List.mem_cons_self) htake)
        (fun t ht => hplain t (List.mem_cons_of_mem _ ht)) hrest

end Sound

/-! ## The extra turn -/

/-- A turn of the session `s` after which nothing of what it compiles is run: it does not compile,
or its word is never run, neither now nor in the turns `rest`. -/
inductive Idle (s : Session) (rest : List Turn) : Turn → Prop
  | eval {line : String} {e : Error} (h : (s.machine.compile line).1 = .error e) :
    Idle s rest (.obey (.eval line))
  | exec {line : String} {e : Error} (h : (s.machine.compile line).1 = .error e) :
    Idle s rest (.obey (.exec line))
  | define {name source : String} {e : Error}
    (h : (s.machine.define name source).1 = .error e) : Idle s rest (.obey (.define name source))
  | compile (line : String) : Idle s rest (.obey (.compile line))
  | keepFailed {slot : Nat} {line : String} {e : Error}
    (h : (s.machine.compile line).1 = .error e) : Idle s rest (.keep slot line)
  | keepUnused {slot : Nat} {line : String} (h : .run slot ∉ rest) :
    Idle s rest (.keep slot line)

variable {s : Session} {m : Machine} {rest : List Turn} {t : Turn} {fuel : Nat}

/-- The machine has more entries without names, and is the same otherwise. -/
structure LeftBehind (m m' : Machine) : Prop where
  limits : m.limits = m'.limits
  bench : m.bench = m'.bench
  dict : m.dict.ExtendsUnnamed m'.dict

/-- Nothing is left behind. -/
theorem LeftBehind.refl (m : Machine) : LeftBehind m m :=
  ⟨rfl, rfl, .refl _⟩

/-- A line that was compiled leaves its entries behind. -/
theorem LeftBehind.compile (m : Machine) (line : String) :
    LeftBehind m (m.compile line).2 :=
  ⟨(m.limits_compile line).symm, (m.bench_compile line).symm, m.compile_extendsUnnamed line⟩

/-- A definition that fails has not bound its name. -/
theorem LeftBehind.of_define {name source : String} {e : Error}
    (h : s.machine.define name source = (.error e, m)) : LeftBehind s.machine m := by
  have hcompile := LeftBehind.compile s.machine source
  unfold Machine.define at h
  split at h
  · split at h
    · next hc =>
      rw [hc] at hcompile
      cases h
      exact hcompile
    · simp at h
  · cases h
    exact .refl _

/-- **What is left behind changes no reference of old.** -/
theorem Sound.alike_leftBehind (h : Sound s) (hm : LeftBehind s.machine m) (hidden : Nat → Prop) :
    Alike s.machine.dict.Old hidden s { s with machine := m } := by
  have hsound : s.machine.dict.Sound Primitive.Standard := h.machine.sound fun _ ha => ha
  refine ⟨⟨hm.limits, hsound.alike_old h.machine.indexed hm.dict, hm.bench⟩, ?_⟩
  intro slot _
  show Option.Rel _ (s.kept slot) (s.kept slot)
  have hkept := h.kept slot
  generalize s.kept slot = w at hkept ⊢
  cases w with
  | none => exact .none
  | some w => exact .some ⟨rfl, Dict.forall₂_old_of_check (hkept w rfl)⟩

/-- A slot that is hidden may be filled. -/
theorem Alike.keep_right {R : Renaming} {hidden : Nat → Prop} {s' : Session}
    (h : Alike R hidden s s') {slot : Nat} (hslot : hidden slot) (w : Option Word) :
    Alike R hidden s (s'.keep slot w) := by
  cases w with
  | none => exact h
  | some w =>
    refine ⟨h.machine, fun k hk => ?_⟩
    have hne : k ≠ slot := fun heq => hk (heq ▸ hslot)
    simp only [Session.keep, if_neg hne]
    exact h.kept k hk

/-- **The extra turn leaves a session that is alike**, but for the slots that are not run any
more. -/
theorem Sound.take_idle (h : Sound s) (hidle : s.Idle rest t) (fuel : Nat) :
    ∃ v s', s.take fuel t = some (v, s') ∧
      Alike s.machine.dict.Old (fun slot => .run slot ∉ rest) s s' := by
  have hobey : ∀ {c r m}, s.machine.obey fuel c = some (r, m) → LeftBehind s.machine m →
      ∃ v s', s.take fuel (.obey c) = some (v, s') ∧
        Alike s.machine.dict.Old (fun slot => .run slot ∉ rest) s s' := by
    intro c r m hobey hm
    refine ⟨m.view (r.map Reply.answer), { s with machine := m }, ?_, h.alike_leftBehind hm _⟩
    rw [Session.take, hobey]
    rfl
  have hcompile := fun line => LeftBehind.compile s.machine line
  cases hidle with
  | @eval line e he =>
    have hc : s.machine.compile line = (.error e, (s.machine.compile line).2) := Prod.ext he rfl
    have heval : s.machine.obey fuel (.eval line) =
        some (.ofUnit (.error e, (s.machine.compile line).2)) := by
      rw [Machine.obey, Machine.eval, hc]
      rfl
    exact hobey heval (hcompile line)
  | @exec line e he =>
    have hc : s.machine.compile line = (.error e, (s.machine.compile line).2) := Prod.ext he rfl
    have hexec : s.machine.obey fuel (.exec line) =
        some (.of .code (e.folded, (s.machine.compile line).2)) := by
      rw [Machine.obey, Machine.exec, hc]
      rfl
    exact hobey hexec (hcompile line)
  | @define name source e he =>
    have hd : s.machine.define name source = (.error e, (s.machine.define name source).2) :=
      Prod.ext he rfl
    exact hobey rfl (.of_define hd)
  | compile line => exact hobey rfl (hcompile line)
  | @keepFailed slot line e he =>
    have hm := hcompile line
    simp only [Session.take]
    generalize s.machine.compile line = o at he hm ⊢
    obtain ⟨r, m⟩ := o
    obtain rfl : r = .error e := he
    exact ⟨_, _, rfl, h.alike_leftBehind hm _⟩
  | @keepUnused slot line hslot =>
    have hm := hcompile line
    simp only [Session.take]
    generalize s.machine.compile line = o at hm ⊢
    obtain ⟨r, m⟩ := o
    cases r with
    | error e => exact ⟨_, _, rfl, h.alike_leftBehind hm _⟩
    | ok w => exact ⟨_, _, rfl, (h.alike_leftBehind hm _).keep_right hslot w⟩

/-! ## Unobservable -/

/-- What is seen of turns, and then of the others. -/
theorem views_append {fuel : Nat} (rest : List Turn) : (before : List Turn) → {s s' : Session} →
    {vs : List View} → s.play fuel before = some (vs, s') →
      vs.length = before.length ∧
        s.views fuel (before ++ rest) = (s'.views fuel rest).map (vs ++ ·)
  | [], s, _, _, h => by
    cases h
    refine ⟨rfl, ?_⟩
    simp
  | t :: before, s, s', vs, h => by
    rw [play] at h
    split at h
    · simp at h
    · next v s₁ htake =>
      obtain ⟨⟨vs', s₂⟩, hplay, heq⟩ := Option.map_eq_some_iff.1 h
      cases heq
      obtain ⟨hlength, hviews⟩ := views_append rest before hplay
      refine ⟨congrArg Nat.succ hlength, ?_⟩
      rw [List.cons_append, views_cons, htake, Option.bind_some]
      dsimp only
      rw [hviews, Option.map_map]
      rfl

/-- A view is put in behind the views before it. -/
theorem insertIdx_append (v : View) (rest : List View) : (before : List View) →
    (before ++ rest).insertIdx before.length v = before ++ v :: rest
  | [] => List.insertIdx_zero
  | u :: before => congrArg (u :: ·) (insertIdx_append v rest before)

/-- **What a line leaves behind is not seen.**  Whatever turns a host takes that has the standard
set and names no reference, an extra turn among them that does not compile, or that compiles what is
never run, adds its own view and changes no other. -/
theorem unobservable (limits : Limits) {before rest : List Turn} (hbefore : ∀ t ∈ before, t.Plain)
    (hrest : ∀ t ∈ rest, t.Plain) {vs : List View}
    (hplay : (start limits).play fuel before = some (vs, s)) (hidle : s.Idle rest t) :
    ∃ v, (start limits).views fuel (before ++ t :: rest) =
      ((start limits).views fuel (before ++ rest)).map (·.insertIdx before.length v) := by
  have hsound : Sound s := (Sound.start limits).play before hbefore hplay
  obtain ⟨v, s', htake, halike⟩ := hsound.take_idle hidle fuel
  have hsame : s.views fuel rest = s'.views fuel rest :=
    halike.views_eq fuel rest hrest fun slot hslot hhidden => hhidden hslot
  obtain ⟨hlength, hviews⟩ := views_append rest before hplay
  obtain ⟨_, hviews'⟩ := views_append (t :: rest) before hplay
  refine ⟨v, ?_⟩
  rw [hviews, hviews', views_cons, htake, Option.bind_some]
  dsimp only
  rw [← hsame, ← hlength, Option.map_map, Option.map_map]
  congr 1
  funext us
  exact (insertIdx_append v us vs).symm

/-- An IF that is never closed shifts the references of all that is defined later, and is not seen
in the listing of it. -/
theorem unobservable_listing :
    ∃ v, (start {}).views 9 [.obey .load, .obey (.exec "7 IF nope"), .obey (.define "INC" "1 ADD"),
        .obey (.eval "2 INC"), .ask (.see "INC")] =
      ((start {}).views 9 [.obey .load, .obey (.define "INC" "1 ADD"), .obey (.eval "2 INC"),
        .ask (.see "INC")]).map (·.insertIdx 1 v) := by
  have hplain : ∀ t ∈ [Turn.obey (.define "INC" "1 ADD"), .obey (.eval "2 INC"), .ask (.see "INC")],
      t.Plain := by
    intro t ht
    simp only [List.mem_cons, List.not_mem_nil, or_false] at ht
    rcases ht with rfl | rfl | rfl
    · exact Command.Binds.of_primitives_eq_nil (c := .define "INC" "1 ADD") rfl
    · exact Command.Binds.of_primitives_eq_nil (c := .eval "2 INC") rfl
    · trivial
  have hload : ∀ t ∈ [Turn.obey .load], t.Plain := by
    intro t ht
    obtain rfl := List.mem_singleton.1 ht
    exact Command.Binds.of_primitives_eq_nil (c := .load) rfl
  exact unobservable {} hload hplain rfl (.exec rfl)

end Session

end Threaded
