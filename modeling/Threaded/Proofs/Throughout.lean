import Threaded.Proofs.Calling
import Threaded.Proofs.Slots

/-!
# What holds throughout a word

A word reaches the entries in its slots, and those in the compounds that it reaches
(`Dict.Reaches`).  What holds of all of these holds **throughout** the word (`Dict.Throughout`).
That is so if it holds of each slot and throughout the compound that may be in it
(`throughout_iff`), and it lasts while the dictionary grows (`Throughout.of_extends`).

The tokens of a line enter literals and branches only.  So something holds throughout the word of a
line if it holds of those entries and of the NOP of the boot, and throughout what the names in the
line mean (`throughout_of_compile`).
-/

namespace Threaded

namespace Dict

/-- All entries that a word reaches have the property `p`. -/
def Throughout (d : Dict) (p : Entry → Prop) (body : Array Ref) : Prop :=
  ∀ r e, d.Reaches body r → d.get? r = some e → p e

variable {d d' : Dict} {p q : Entry → Prop} {body : Array Ref} {r : Ref} {e : Entry} {v : Word}

/-- What holds throughout a word holds in each slot. -/
theorem Throughout.slot (h : d.Throughout p body) (hr : r ∈ body) (he : d.get? r = some e) : p e :=
  h r e (.slot hr) he

/-- What holds throughout a word holds throughout each word that it calls. -/
theorem Throughout.compound (h : d.Throughout p body) (hr : r ∈ body)
    (hv : d.get? r = some (.compound v)) : d.Throughout p v.body :=
  fun s e hs => h s e (hs.through hr hv)

/-- Two properties that hold throughout hold together. -/
theorem Throughout.and (hp : d.Throughout p body) (hq : d.Throughout q body) :
    d.Throughout (fun e => p e ∧ q e) body :=
  fun r e hr he => ⟨hp r e hr he, hq r e hr he⟩

/-- The first of two properties that hold together holds throughout the word. -/
theorem Throughout.left (h : d.Throughout (fun e => p e ∧ q e) body) : d.Throughout p body :=
  fun r e hr he => (h r e hr he).1

/-- The second of two properties that hold together holds throughout the word. -/
theorem Throughout.right (h : d.Throughout (fun e => p e ∧ q e) body) : d.Throughout q body :=
  fun r e hr he => (h r e hr he).2

/-- **Slot by slot**: what holds throughout a word holds of the entries in its slots and throughout
the compounds in them. -/
theorem throughout_iff :
    d.Throughout p body ↔
      ∀ r ∈ body, ∀ e, d.get? r = some e → p e ∧ ∀ v, e = .compound v → d.Throughout p v.body := by
  constructor
  · intro h r hr e he
    exact ⟨h.slot hr he, fun v hv => h.compound hr (hv ▸ he)⟩
  · intro h s e hs he
    rcases hs.cases with hs | ⟨r, hr, v, hv, hs⟩
    · exact (h s hs e he).1
    · exact (h r hr _ hv).2 v rfl s e hs he

/-- Throughout a word of one slot: in that slot, and throughout the word it calls. -/
theorem throughout_singleton_iff (he : d.get? r = some e) :
    d.Throughout p #[r] ↔ p e ∧ ∀ v, e = .compound v → d.Throughout p v.body := by
  rw [throughout_iff]
  simp only [List.mem_toArray, List.mem_singleton, forall_eq, he, Option.some.injEq, forall_eq']

/-- What holds throughout each slot by itself holds throughout the word. -/
theorem throughout_of_slots (h : ∀ r ∈ body, d.Throughout p #[r]) : d.Throughout p body := by
  refine throughout_iff.2 fun r hr e he => ?_
  exact (throughout_singleton_iff he).1 (h r hr)

/-- **What holds throughout a word lasts** while a layered dictionary grows. -/
theorem Throughout.of_extends (h : d.Throughout p body) (hgrows : d.Extends d') (hd : d.Layered)
    (hbody : ∀ q ∈ body, q < d.size) : d'.Throughout p body := by
  intro s e hs he
  obtain ⟨hs, hlt⟩ := hs.of_extends hgrows hd hbody
  exact h s e hs ((hgrows.get?_of_lt s hlt).symm.trans he)

end Dict

/-- The entry of a token is no compound. -/
theorem Symbol.Enters.ne_compound {d : Dict} {symbols : List Symbol} {t : Nat} {s : Symbol}
    {e : Entry} (h : Enters d symbols t s e) (v : Word) : e ≠ .compound v := by
  cases h <;> exact nofun

/-- **What holds throughout the word of a line.** -/
theorem Machine.throughout_of_compile {allowed : Command → Prop} {p : Entry → Prop} {m m' : Machine}
    {w : Word} {line : String} (h : Reachable allowed m) (hline : line.utf8ByteSize < 2 ^ 63)
    (hmark : p (.primitive "NOP" .nop))
    (hnames : ∀ text q, .word text ∈ lineSymbols line → m.dict.lookup text = some q →
      m.dict.Throughout p #[q])
    (hnew : ∀ t s e, (lineSymbols line)[t]? = some s →
      Symbol.Enters m.dict (lineSymbols line) t s e → p e)
    (hc : m.compile line = (.ok (some w), m')) : m'.dict.Throughout p w.body := by
  have hassembled := assembled_of_compile h hline hc
  have hgrows := hassembled.gained.kept.toExtends
  apply Dict.throughout_of_slots
  intro r hr
  obtain ⟨t, ht⟩ := Array.mem_iff_getElem?.1 hr
  have hlt := (Array.getElem?_eq_some_iff.1 ht).1
  rw [hassembled.size] at hlt
  have hs : (lineSymbols line)[t]? = some (lineSymbols line)[t] := List.getElem?_eq_getElem hlt
  obtain ⟨r', ht', hfills⟩ := hassembled.slot t _ hs
  obtain rfl : r = r' := Option.some.inj (ht.symm.trans ht')
  generalize (lineSymbols line)[t] = s at hs hfills
  cases hfills with
  | mark hr hget => exact (Dict.throughout_singleton_iff (hr ▸ hget)).2 ⟨hmark, nofun⟩
  | @known name hname hnewest =>
    obtain ⟨e, he, _⟩ := Option.bind_eq_some_iff.1 hname
    have hlookup := h.chronicled.lookup_eq_some_iff.2 ⟨hname, hnewest⟩
    refine (hnames name r (List.mem_of_getElem? hs) hlookup).of_extends hgrows h.layered ?_
    intro q hq
    obtain rfl := Array.mem_singleton.1 hq
    exact Dict.lt_size_of_get? he
  | new _ _ henters hget =>
    refine (Dict.throughout_singleton_iff hget).2 ⟨hnew t s _ hs henters, ?_⟩
    exact fun v hv => absurd hv (henters.ne_compound v)

end Threaded
