import Mathlib.Data.List.MinMax
import Threaded.Proofs.EarlyBinding
import Threaded.Proofs.Ledger
import Threaded.Proofs.Stretch

/-!
# A call is a run of its source

Define a name by a line and call it, and the same happens as if the line had been evaluated in place
of the definition (`call_eq_source`).  The call runs in a dictionary in which the name may mean
something else than in the source, and every frame of it is nested one level deeper.

The first does not matter, since the source was bound when it was compiled.  The second matters at
the limit of calls alone.  How deep the calls below a word may be nested can be read off the
dictionary, as its **height** (`Dict.height`): compounds call older entries only, so this is no more
than the ledger is long.  A word that fits below the limit never gets there, and any other may break
off at it, with an error of its own.  These are two couplings of the same two runs.
-/

namespace Threaded

/-! ## Heights -/

namespace Dict

/-- How deep the calls in an entry are nested, its own included: a compound is one level above the
entries in its slots, and nothing else makes a call.  What is in the slots is older. -/
def callHeight (d : Dict) (r : Ref) : Nat :=
  match d.get? r with
  | some (.compound w) =>
    (w.body.toList.map fun q => if q < r then d.callHeight q else 0).foldr max 0 + 1
  | _ => 0
termination_by r

/-- How deep the calls in a word are nested: zero if it holds no compound, and otherwise one level
above the highest word of a compound in it. -/
def height (d : Dict) (body : Array Ref) : Nat :=
  (body.toList.map d.callHeight).foldr max 0

variable {d d' : Dict} {r : Ref} {w : Word} {body : Array Ref}

/-- A compound is one level above its word. -/
theorem callHeight_compound (h : d.Layered) (hr : d.get? r = some (.compound w)) :
    d.callHeight r = d.height w.body + 1 := by
  have hbody : w.body.toList.map (fun q => if q < r then d.callHeight q else 0) =
      w.body.toList.map d.callHeight := by
    apply List.map_congr_left
    intro q hq
    exact if_pos (h r q ⟨w, hr, Array.mem_toList_iff.1 hq⟩)
  rw [callHeight, hr]
  dsimp only
  rw [hbody, height]

/-- What is no compound makes no call. -/
theorem callHeight_of_ne (h : ∀ w, d.get? r ≠ some (.compound w)) : d.callHeight r = 0 := by
  rw [callHeight]
  split
  · next w hr => exact absurd hr (h w)
  · rfl

/-- A word is at least as high as a call in one of its slots. -/
theorem callHeight_le_height (hr : r ∈ body) : d.callHeight r ≤ d.height body :=
  List.le_max_of_le' 0 (List.mem_map_of_mem (Array.mem_toList_iff.2 hr)) (Nat.le_refl _)

/-- **Heights last** while the dictionary grows. -/
theorem Extends.callHeight_eq (h : d.Extends d') (hd : d.Layered) (hd' : d'.Layered) (r : Ref)
    (hr : r < d.size) : d'.callHeight r = d.callHeight r := by
  induction r using Nat.strongRecOn with
  | ind r ih =>
    have hget := h.get?_of_lt r hr
    by_cases hcompound : ∃ w, d.get? r = some (.compound w)
    · obtain ⟨w, hw⟩ := hcompound
      have hbody : w.body.toList.map d'.callHeight = w.body.toList.map d.callHeight := by
        apply List.map_congr_left
        intro q hq
        have hlt : q < r := hd r q ⟨w, hw, Array.mem_toList_iff.1 hq⟩
        exact ih q hlt (Nat.lt_trans hlt hr)
      rw [callHeight_compound hd hw, callHeight_compound hd' (hget.trans hw), height, height, hbody]
    · have hnone : ∀ w, d.get? r ≠ some (.compound w) := fun w hw => hcompound ⟨w, hw⟩
      rw [callHeight_of_ne hnone, callHeight_of_ne fun w hw => hnone w (hget.symm.trans hw)]

/-- A word keeps its height when entries are added. -/
theorem Extends.height_eq (h : d.Extends d') (hd : d.Layered) (hd' : d'.Layered)
    (hbody : ∀ r ∈ body, r < d.size) : d'.height body = d.height body := by
  have hmap : body.toList.map d'.callHeight = body.toList.map d.callHeight := by
    apply List.map_congr_left
    intro r hr
    exact h.callHeight_eq hd hd' r (hbody r (Array.mem_toList_iff.1 hr))
  rw [height, height, hmap]

/-- The newest entry of a name is the one just registered. -/
theorem lookup_register_self {e : Entry} {name : String} (he : e.name? = some name) :
    (d.register e).lookup name = some d.size := by
  have hname : (d.register e).nameOf? d.size = some name := (nameOf?_register_self d e).trans he
  have hnamed : (d.register e).named = d.size :: d.named := by
    simp [register, Entry.isNamed, he]
  rw [lookup, hnamed, List.find?_cons, hname, beq_self_eq_true]

/-- **What a sound dictionary grows into matches it.** -/
theorem Sound.old_matches (h : d.Sound Primitive.Standard) (hgrows : d.Extends d') :
    Matches d.Old d' d := by
  rintro r r' hr
  obtain ⟨e, e', he, he', halike⟩ := h.matches_old hgrows r r' hr
  obtain rfl : r = r' := hr.1
  obtain rfl : e = e' := Option.some.inj ((hgrows.get? he).symm.trans he')
  exact ⟨e, e, he', he, halike⟩

end Dict

/-- Words stand above what they call, on every machine that can be reached. -/
theorem Machine.Reachable.layered {allowed : Command → Prop} {m : Machine}
    (h : Reachable allowed m) : m.dict.Layered := by
  obtain ⟨_, hdev⟩ := h.exists_develops
  rintro r q ⟨w, hr, hq⟩
  exact hdev.ledgerInvariant.below r w hr q hq

/-! ## The two runs -/

/-- The run of a call, in the dictionary `d'`, coupled to the run of its source, in a dictionary `d`
that has grown into `d'`. -/
def calling (d d' : Dict) (limits : Limits) (c c' : String) (levels : Array Ref → Nat → Nat → Prop)
    (excused : Error → Prop) : Coupling where
  limits := limits
  limits' := limits
  dict := d'
  dict' := d
  refs := d.Old
  benches := Bench.Beside c' c
  levels := levels
  excused := excused

section Calling

variable {d d' : Dict} {limits : Limits} {c c' : String}

/-- **A call that fits below the limit** never gets to it. -/
theorem lawful_calling_fits (h : d.Sound Primitive.Standard) (hgrows : d.Extends d')
    (hd' : d'.Layered) :
    (calling d d' limits c c'
      (fun body depth depth' => depth = depth' + 1 ∧ depth + d'.height body ≤ limits.maxDepth)
      (fun _ => False)).Lawful := by
  refine .of_elementary (h.old_matches hgrows) (Bench.elementary_beside c' c _) ?_
  rintro body depth depth' ⟨rfl, hfits⟩ r hr w hw
  have hle := Dict.callHeight_le_height (d := d') hr
  rw [Dict.callHeight_compound hd' hw] at hle
  have hroom : ¬ limits.maxDepth < depth' + 1 + 1 := by omega
  refine (if_neg hroom).mpr ⟨?_, rfl, ?_⟩
  · show depth' + 1 ≤ limits.maxDepth
    omega
  · omega

/-- **Any call** goes as its source does as long as it does not get to the limit. -/
theorem lawful_calling_excused (h : d.Sound Primitive.Standard) (hgrows : d.Extends d') :
    (calling d d' limits c c'
      (fun _ depth depth' => depth = depth' + 1 ∧ depth ≤ limits.maxDepth)
      (· = .recursionLimitExceeded (limits.maxDepth + 1))).Lawful := by
  refine .of_elementary (h.old_matches hgrows) (Bench.elementary_beside c' c _) ?_
  rintro body depth depth' ⟨rfl, hfits⟩ r _ w _
  split
  · next hdeep =>
    left
    show Error.recursionLimitExceeded _ = .recursionLimitExceeded _
    have hmax : limits.maxDepth < depth' + 1 + 1 := hdeep
    congr 1
    omega
  · next hroom =>
    have hmax : ¬ limits.maxDepth < depth' + 1 + 1 := hroom
    refine ⟨?_, rfl, ?_⟩
    · show depth' + 1 ≤ limits.maxDepth
      omega
    · omega

end Calling

/-! ## Lines on another bench -/

namespace Machine

variable {m m' m₁ m₂ : Machine} {name source line : String} {w : Option Word} {r : Ref}

/-- Compiling a line does not look at the bench. -/
theorem compile_withBench {result : Except Error (Option Word)} (h : m.compile line = (result, m₁))
    (s : Stack Cell) (c : String) :
    (m.withBench s c).compile line = (result, m₁.withBench s c) := by
  rw [compile_eq] at h ⊢
  simp only [withBench] at h ⊢
  split at h
  · cases h
    rfl
  · split at h
    · next hblank =>
      cases h
      simp only [if_pos hblank]
    · next hblank =>
      cases h
      simp only [if_neg hblank]

/-- A word that is known is assembled into the slot of what it leads to. -/
theorem assemble_word {d : Dict} (hr : d.lookup name = some r) :
    assemble d [.word name] = (.ok { body := #[r] }, d) := by
  obtain ⟨e, he, _, hoffset⟩ := Dict.get?_of_lookup hr
  have hcheck : Jump.check d #[r] = .ok () := by
    simp [Jump.check, Jump.checkFrom, Jump.checkSlot, he, hoffset]
  simp only [assemble, Assembly.addAll, Assembly.add, Assembly.resolve, Assembly.start, hr]
  simp only [Assembly.place, Assembly.finish, Stack.empty, List.isEmpty_nil, if_true]
  rw [show (#[] : Array Ref).push r = #[r] from rfl, hcheck]
  rfl

/-- **A name that means a word** is compiled into a call of what it leads to. -/
theorem compile_name (hname : isName m.limits.nameLen name = true)
    (hword : Symbol.ofText name = .word name) (hr : m.dict.lookup name = some r) :
    m.compile name = (.ok (some { body := #[r] }), m) := by
  unfold compile
  rw [tokenize_of_isName hname]
  simp only [List.map_cons, List.map_nil, Token.symbol, hword, assemble_word hr]
  rfl

/-! ## The theorem -/

/-- A definition that succeeds: what was compiled, and where the name leads. -/
theorem of_define (h : m.define name source = (.ok r, m')) :
    ∃ w m₂, m.compile source = (.ok w, m₂) ∧ isName m'.limits.nameLen name = true ∧
      m'.dict.lookup name = some r ∧ m'.limits = m₂.limits ∧ m₂.dict.Extends m'.dict ∧
      m'.dict.get? r = some (.compound { name, body := slotsOf w }) := by
  have hname : isName m.limits.nameLen name = true := by
    unfold define at h
    split at h
    · next hname => exact hname
    · simp at h
  obtain ⟨w, m₂, hc, rfl, rfl⟩ := define_eq_ok h
  have hlimits := m.limits_compile source
  rw [hc] at hlimits
  refine ⟨w, m₂, hc, ?_, Dict.lookup_register_self rfl, rfl, .register _ _,
    Dict.get?_register_self _ _⟩
  show isName m₂.limits.nameLen name = true
  rwa [hlimits]

/-- **To evaluate the name of a compound** is to run its word, one level deep. -/
theorem evalsTo_name {body : Array Ref} (hname : isName m.limits.nameLen name = true)
    (hword : Symbol.ofText name = .word name) (hlookup : m.dict.lookup name = some r)
    (hr : m.dict.get? r = some (.compound { name, body })) (o : Ending) :
    m.EvalsTo name o ↔
      if m.limits.maxDepth < 1 then o = (.error (.recursionLimitExceeded 1), m)
      else Behaviour.ofFrames [.code body 0 1] m o := by
  have hslot : (#[r] : Array Ref)[0]? = some r := rfl
  have hbehind : Behaviour.ofFrames [.code body 0 1, .code #[r] 1 0] m o ↔
      Behaviour.ofFrames [.code body 0 1] m o :=
    (@Behaviour.ofFrames_append m o [.code body 0 1] [.code #[r] 1 0]).trans
      ((Behaviour.andThen_congr fun m₁ _ => @goesOn_size #[r] m₁ o).trans Behaviour.andThen_done)
  rw [evalsTo_iff_goesOn (compile_name hname hword hlookup)]
  show Behaviour.ofFrames [.code #[r] 0 0] m o ↔ _
  rw [Behaviour.ofFrames, Thread.endsIn_iff, step_of_get? hslot hr, Thread.enter]
  by_cases hdeep : m.limits.maxDepth < 1
  · rw [if_pos hdeep, if_pos hdeep]
  · rw [if_neg hdeep, if_neg hdeep]
    exact hbehind

/-- What ends in the one way ends in the other, with the same result, the same stack, and the same
text printed behind what was there before. -/
structure SameEnds (c c' : String) (x y : Ending → Prop) : Prop where
  forth : ∀ o, x o → ∃ o', y o' ∧ SameEnding c c' o o'
  back : ∀ o', y o' → ∃ o, x o ∧ SameEnding c c' o o'

/-- The run of a call and the run of its source end alike, unless the call is excused. -/
theorem sameEnds_of_calling {body : Array Ref} {levels : Array Ref → Nat → Nat → Prop}
    {excused : Error → Prop} {s : Stack Cell} {c c' : String}
    (hC : (calling m₂.dict m'.dict m₂.limits c c' levels excused).Lawful)
    (hbody : Jump.check m₂.dict body = .ok ()) (hlimits : m'.limits = m₂.limits)
    (hlevel : levels body 1 0) :
    (∃ e m₁, Behaviour.ofFrames [.code body 0 1] (m'.withBench s c') (.error e, m₁) ∧ excused e) ∨
      SameEnds c c' (goesOn body 0 (m₂.withBench s c))
        (Behaviour.ofFrames [.code body 0 1] (m'.withBench s c')) := by
  have hcoupled : Thread.Coupled (calling m₂.dict m'.dict m₂.limits c c' levels excused)
      ⟨m'.withBench s c', [.code body 0 1]⟩ ⟨m₂.withBench s c, [.code body 0 0]⟩ :=
    ⟨⟨hlimits, rfl, rfl, rfl, .start s c' c⟩,
      .cons (.code 0 (Dict.forall₂_old_of_check hbody) hlevel) .nil⟩
  rcases hcoupled.endsIn hC with ⟨e, m₁, hend, he⟩ | ⟨hforth, hback⟩
  · exact .inl ⟨e, m₁, hend, he⟩
  · refine .inr ⟨?_, ?_⟩
    · intro o ho
      obtain ⟨o', ho', hend⟩ := hback o ho
      exact ⟨o', ho', hend.result.symm, hend.machine.bench.symm⟩
    · intro o' ho'
      obtain ⟨o, ho, hend⟩ := hforth o' ho'
      exact ⟨o, ho, hend.result.symm, hend.machine.bench.symm⟩

/-- **A call is a run of its source.**  Let a definition succeed on a machine that has the standard
set at most, and let the name mean a word.  From the same stack, evaluating the name comes to what
evaluating the source would have come to before: always, if the source is lower than the limit of
calls, and otherwise unless the call breaks off at the limit. -/
theorem call_eq_source (h : Reachable (Command.Binds Primitive.Standard) m)
    (hword : Symbol.ofText name = .word name) (hdefine : m.define name source = (.ok r, m')) :
    ∃ w m₂, m.compile source = (.ok w, m₂) ∧
      (m₂.dict.height (slotsOf w) < m.limits.maxDepth → ∀ s c c',
        SameEnds c c' ((m.withBench s c).EvalsTo source) ((m'.withBench s c').EvalsTo name)) ∧
      ∀ s c c',
        SameEnds c c' ((m.withBench s c).EvalsTo source) ((m'.withBench s c').EvalsTo name) ∨
          ∃ m₁, (m'.withBench s c').EvalsTo name
            (.error (.recursionLimitExceeded (m.limits.maxDepth + 1)), m₁) := by
  obtain ⟨w, m₂, hc, hname, hlookup, hlimits, hgrows, hr⟩ := of_define hdefine
  have hreach₂ : Reachable (Command.Binds Primitive.Standard) m₂ :=
    h.compile (.of_primitives_eq_nil rfl) hc
  have hreach' : Reachable (Command.Binds Primitive.Standard) m' :=
    h.define (.of_primitives_eq_nil rfl) hdefine
  have hsound : m₂.dict.Sound Primitive.Standard := hreach₂.sound fun _ h => h
  have hbody := check_slotsOf hc
  have hmax : m.limits = m₂.limits := by
    have hkept := m.limits_compile source
    rw [hc] at hkept
    exact hkept.symm
  have hsource : ∀ s c, (m.withBench s c).EvalsTo source =
      goesOn (slotsOf w) 0 (m₂.withBench s c) := fun s c =>
    funext fun o => propext (evalsTo_iff_goesOn (compile_withBench hc s c) o)
  have hcall : ∀ s c o, (m'.withBench s c).EvalsTo name o ↔
      if m₂.limits.maxDepth < 1 then o = (.error (.recursionLimitExceeded 1), m'.withBench s c)
      else Behaviour.ofFrames [.code (slotsOf w) 0 1] (m'.withBench s c) o := by
    intro s c
    rw [← hlimits]
    exact evalsTo_name (m := m'.withBench s c) hname hword hlookup hr
  have hopen : ¬ m₂.limits.maxDepth < 1 → ∀ s c, (m'.withBench s c).EvalsTo name =
      Behaviour.ofFrames [.code (slotsOf w) 0 1] (m'.withBench s c) := by
    intro hdepth s c
    funext o
    rw [hcall, if_neg hdepth]
  rw [hmax]
  refine ⟨w, m₂, hc, ?_, ?_⟩
  · intro hheight s c c'
    have hlow : 1 + m'.dict.height (slotsOf w) ≤ m₂.limits.maxDepth := by
      rw [hgrows.height_eq hreach₂.layered hreach'.layered fun r => Dict.lt_size_of_check hbody]
      omega
    rw [hsource, hopen (by omega)]
    rcases sameEnds_of_calling (lawful_calling_fits hsound hgrows hreach'.layered) hbody hlimits
      ⟨rfl, hlow⟩ with ⟨_, _, _, hnever⟩ | hsame
    · exact hnever.elim
    · exact hsame
  · intro s c c'
    by_cases hdepth : m₂.limits.maxDepth < 1
    · have hzero : m₂.limits.maxDepth + 1 = 1 := by omega
      right
      rw [hzero]
      exact ⟨m'.withBench s c', (hcall s c' _).2 (by rw [if_pos hdepth])⟩
    · rw [hsource, hopen hdepth]
      rcases sameEnds_of_calling (lawful_calling_excused hsound hgrows) hbody hlimits
        ⟨rfl, Nat.le_of_not_lt hdepth⟩ with ⟨e, m₁, hend, rfl⟩ | hsame
      · exact .inr ⟨m₁, hend⟩
      · exact .inl hsame

/-- A definition that calls twice what had its name before. -/
theorem call_eq_source_redefined :
    ∃ m m', Reachable (Command.Binds Primitive.Standard) m ∧
      Symbol.ofText "TWICE" = .word "TWICE" ∧
      m.define "TWICE" "TWICE TWICE" = (.ok 18, m') ∧ ∀ s c c',
        SameEnds c c' ((m.withBench s c).EvalsTo "TWICE TWICE")
          ((m'.withBench s c').EvalsTo "TWICE") := by
  have hreach : Reachable (Command.Binds Primitive.Standard)
      ((boot {}).load.2.define "TWICE" "DUP ADD").2 :=
    .obey 0 (.load (.of_primitives_eq_nil rfl) {}) (c := .define "TWICE" "DUP ADD")
      (.of_primitives_eq_nil rfl) rfl
  have hword : Symbol.ofText "TWICE" = .word "TWICE" := by decide
  have hdefine : ((boot {}).load.2.define "TWICE" "DUP ADD").2.define "TWICE" "TWICE TWICE" =
      (.ok 18, _) := rfl
  obtain ⟨w, m₂, hc, hruns, _⟩ := call_eq_source hreach hword hdefine
  have hcompile : ((boot {}).load.2.define "TWICE" "DUP ADD").2.compile "TWICE TWICE" =
      (.ok (some { body := #[17, 17] }), ((boot {}).load.2.define "TWICE" "DUP ADD").2) := rfl
  rw [hcompile] at hc
  cases hc
  have hheight : Dict.height ((boot {}).load.2.define "TWICE" "DUP ADD").2.dict #[17, 17] = 1 := by
    have h17 : ((boot {}).load.2.define "TWICE" "DUP ADD").2.dict.get? 17 =
        some (.compound { name := "TWICE", body := #[11, 1] }) := rfl
    have h11 := @Dict.callHeight_of_ne ((boot {}).load.2.define "TWICE" "DUP ADD").2.dict 11 nofun
    have h1 := @Dict.callHeight_of_ne ((boot {}).load.2.define "TWICE" "DUP ADD").2.dict 1 nofun
    have htwice := Dict.callHeight_compound hreach.layered h17
    simp only [Dict.height, List.map_cons, List.map_nil, List.foldr_cons, List.foldr_nil, h11, h1,
      htwice]
    rfl
  refine ⟨_, _, hreach, hword, hdefine, hruns ?_⟩
  exact hheight ▸ (by decide)

end Machine

end Threaded
