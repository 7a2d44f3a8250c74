import Threaded.Proofs.Lockstep

/-!
# Words are bound early

A word keeps its meaning.  Once it can be run, it does the same on every machine that commands may
make of this one (`Machine.Becomes`): whatever is defined meanwhile, under whatever names, and
whatever lines fail, from the same stack it comes to the same result, the same stack and the same
printed text, or it never ends in either case.  So a definition that uses a name goes on calling
what had the name before, also if it takes that name for itself (`early_binding`).

Words are bound when they are assembled: the slot of a name holds the reference that the name led to
(`getElem?_slotRefs`), and nothing looks for a name again when the word is run.  What the word can
reach lies inside the ledger as it was, and that part of the ledger matches all that it grows into
(`Dict.Sound.matches_old`), so the runs go side by side.
-/

namespace Threaded

/-! ## What a name is bound to -/

/-- The slot of a name that is known holds what the name leads to. -/
theorem Symbol.getElem?_slotRefs {d : Dict} {text : String} {q : Ref}
    (hq : d.lookup text = some q) : (symbols : List Symbol) → (next i : Nat) →
      symbols[i]? = some (.word text) → (slotRefs d next symbols)[i]? = some q
  | s :: _, next, 0, h => by
    obtain rfl : s = .word text := Option.some.inj h
    simp only [slotRefs, List.getElem?_cons_zero, ref, hq, Option.getD_some]
  | _ :: rest, _, i + 1, h => getElem?_slotRefs hq rest _ i h

/-- The slots of a word that is assembled are those of its image. -/
theorem toList_body_of_assemble {d : Dict} {symbols : List Symbol} {w : Word}
    (h : (assemble d symbols).1 = .ok w) : w.body.toList = Symbol.slotRefs d d.size symbols := by
  have himage := assemble_image d symbols
  split at himage
  · obtain ⟨d', hd', _⟩ := himage
    rw [hd'] at h
    simp at h
  · obtain ⟨a, os, ha, _, hslots, _⟩ := himage
    rw [ha] at h
    rw [(Assembly.finish_eq_ok h).1]
    exact hslots

namespace Machine

variable {m m' m₁ : Machine}

/-- The slots that a line is compiled into, none for a line without tokens. -/
theorem toList_body_of_compile {line : String} {w : Option Word}
    (h : m.compile line = (.ok w, m')) :
    ((w.map Word.body).getD #[]).toList =
      Symbol.slotRefs m.dict m.dict.size (lineSymbols line) := by
  rw [compile_eq] at h
  split at h
  · simp at h
  · split at h
    · next hblank =>
      cases h
      rw [hblank]
      rfl
    · have hassemble := @toList_body_of_assemble m.dict (lineSymbols line)
      generalize (assemble m.dict (lineSymbols line)).1 = assembled at h hassemble
      cases assembled with
      | error e => simp [Except.map] at h
      | ok w' =>
        obtain rfl : some w' = w := Except.ok.inj (Prod.mk.inj h).1
        exact hassemble rfl

/-! ## Later machines -/

/-- Some sequence of commands makes the second machine of the first, whatever they answer. -/
def Becomes : Machine → Machine → Prop :=
  Relation.ReflTransGen fun m m' => ∃ fuel c r, m.obey fuel c = some (r, m')

/-- A machine grows under commands. -/
theorem Becomes.grows (h : m.Becomes m') : m.Grows m' := by
  induction h with
  | refl => exact .refl m
  | tail _ hobey ih =>
    obtain ⟨fuel, c, r, hobey⟩ := hobey
    exact ih.trans (obey_grows hobey)

/-- The word can be run: its references and its branches are good. -/
def Accepts (m : Machine) (w : Word) : Prop :=
  Jump.check m.dict w.body = .ok ()

/-- The machine with these items on its stack and this text printed. -/
def withBench (m : Machine) (s : Stack Cell) (text : String) : Machine :=
  { m with bench := ⟨s, text⟩ }

/-- The same result, the same stack, and the same text printed behind what was there before. -/
structure SameEnding (c c' : String) (o o' : Ending) : Prop where
  result : o.1 = o'.1
  bench : Bench.Beside c c' o.2.bench o'.2.bench

/-- From the same stack the word comes to the same on both machines, in the same number of steps,
or on both to no end. -/
def SameRuns (m m' : Machine) (w : Word) : Prop :=
  ∀ (s : Stack Cell) (c c' : String) (fuel : Nat),
    Option.Rel (SameEnding c c') ((m.withBench s c).run fuel w) ((m'.withBench s c').run fuel w)

/-- **A word does the same on every larger machine.** -/
theorem Grows.sameRuns (hgrows : m.Grows m') (h : m.dict.Sound Primitive.Standard) {w : Word}
    (hw : m.Accepts w) : m.SameRuns m' w := by
  intro s c c' fuel
  have hbench : Bench.Beside c c' ⟨s, c⟩ ⟨s, c'⟩ :=
    ⟨rfl, "", String.append_empty.symm, String.append_empty.symm⟩
  -- the two dictionaries stay as they are in these runs, since nothing in them compiles
  have hbeside : Machine.Beside c c' m.dict m'.dict (m.withBench s c) (m'.withBench s c') :=
    ⟨rfl, rfl, hgrows.limits.symm, hbench⟩
  have hrun := run_beside (h.matches_old hgrows.dict) (Dict.forall₂_old_of_check hw) hbeside fuel
  generalize (m.withBench s c).run fuel w = o, (m'.withBench s c').run fuel w = o' at hrun ⊢
  cases hrun with
  | none => exact .none
  | some hend => exact .some ⟨hend.result, hend.machine.bench⟩

/-! ## Early binding -/

/-- A definition that led from the machine `m` to `m₁` keeps its body, and the slot of a name that
was known, its own name not excepted, holds for ever what the name led to before. -/
def KeepsMeaning (m m₁ : Machine) (name source : String) (r : Ref) : Prop :=
  ∃ body : Array Ref,
    (∀ m', m₁.Becomes m' → m'.dict.get? r = some (.compound { name, body })) ∧
    ∀ (i : Nat) (text : String) (q : Ref), (lineSymbols source)[i]? = some (.word text) →
      m.dict.lookup text = some q →
        body[i]? = some q ∧ q < r ∧ ∀ m', m₁.Becomes m' → m'.dict.get? q = m.dict.get? q

/-- What is bound on a machine stays bound to the same. -/
structure EarlyBinding (m : Machine) : Prop where
  /-- A compiled word can be run, and does the same for ever. -/
  compiled : ∀ line w m₁, m.compile line = (.ok (some w), m₁) →
    m₁.Accepts w ∧ ∀ m', m₁.Becomes m' → m₁.SameRuns m' w
  /-- So does any word that can be run. -/
  accepted : ∀ w, m.Accepts w → ∀ m', m.Becomes m' → m.SameRuns m' w
  /-- So does a definition, whatever becomes of the names in it. -/
  defined : ∀ name source r m₁, m.define name source = (.ok r, m₁) →
    m.KeepsMeaning m₁ name source r

/-- What a definition binds its name to. -/
theorem define_eq_ok {name source : String} {r : Ref} (h : m.define name source = (.ok r, m₁)) :
    ∃ w m₂, m.compile source = (.ok w, m₂) ∧ r = m₂.dict.size ∧
      m₁ = m₂.register (.compound { name, body := (w.map Word.body).getD #[] }) := by
  unfold define at h
  split at h
  · split at h
    · simp at h
    · next w m₂ hc =>
      cases h
      exact ⟨w, m₂, hc, rfl, rfl⟩
  · simp at h

/-- **A definition keeps its meaning.** -/
theorem keepsMeaning_of_define {name source : String} {r : Ref}
    (h : m.define name source = (.ok r, m₁)) : m.KeepsMeaning m₁ name source r := by
  obtain ⟨w, m₂, hc, rfl, rfl⟩ := define_eq_ok h
  have hcompile : m.dict.Extends m₂.dict := by
    have hunnamed := compile_extendsUnnamed m source
    rw [hc] at hunnamed
    exact hunnamed.toExtends
  refine ⟨_, fun m' hm' => hm'.grows.dict.get? (Dict.get?_register_self _ _), ?_⟩
  intro i text q hi hq
  have hlt := Dict.lt_size_of_lookup hq
  refine ⟨?_, Nat.lt_of_lt_of_le hlt hcompile.size_le, ?_⟩
  · rw [← Array.getElem?_toList, toList_body_of_compile hc]
    exact Symbol.getElem?_slotRefs hq _ _ i hi
  · intro m' hm'
    exact ((hcompile.trans (.register _ _)).trans hm'.grows.dict).get?_of_lt q hlt

/-- **Early binding**, on every machine that has the standard set at most. -/
theorem early_binding (h : Reachable (Command.Binds Primitive.Standard) m) : EarlyBinding m := by
  have hsound : m.dict.Sound Primitive.Standard := h.sound fun _ h => h
  refine ⟨?_, fun w hw m' hm' => hm'.grows.sameRuns hsound hw,
    fun _ _ _ _ => keepsMeaning_of_define⟩
  intro line w m₁ hc
  have haccepts : m₁.Accepts w := check_of_compile hc
  have hsound₁ : m₁.dict.Sound Primitive.Standard := by
    have hunnamed := compile_extendsUnnamed m line
    rw [hc] at hunnamed
    exact hsound.extendsUnnamed hunnamed
  exact ⟨haccepts, fun m' hm' => hm'.grows.sameRuns hsound₁ haccepts⟩

/-- A square stays a square when what it duplicates with is bound to something else. -/
theorem early_binding_shadowed :
    ∃ w m₁ m', (boot {}).load.2.compile "DUP MUL" = (.ok (some w), m₁) ∧
      m₁.obey 0 (.define "DUP" "DROP 7") = some (.ok (.ref 18), m') ∧
      m'.dict.lookup "DUP" = some 18 ∧ m₁.SameRuns m' w := by
  have hreach : Reachable (Command.Binds Primitive.Standard) (boot {}).load.2 :=
    .load (fun _ h => nomatch h) {}
  have hkept := ((early_binding hreach).compiled "DUP MUL" _ _ rfl).2
  exact ⟨_, _, _, rfl, rfl, by decide, hkept _ (.single ⟨0, .define "DUP" "DROP 7", _, rfl⟩)⟩

end Machine

end Threaded
