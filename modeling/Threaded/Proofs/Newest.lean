import Mathlib.Data.List.Basic
import Threaded.Proofs.History

/-!
# A name leads to its newest entry

The references with a name are kept in a list, and a lookup takes the first of them that fits.  On a
reachable machine this list has all entries that have a name, each once and the newest first
(`Dict.Chronicled`).  So a name leads to the newest of its entries, and to nothing only if there is
none (`Chronicled.lookup_eq_some_iff`, `lookup_eq_none_iff`).
-/

namespace Threaded

namespace Dict

/-- The references of the entries that have a name, newest first. -/
structure Chronicled (d : Dict) : Prop where
  sorted : d.named.Pairwise fun r q => q < r
  complete : ∀ r, r ∈ d.named ↔ d.nameOf? r ≠ none

variable {d d' : Dict} {r : Ref} {name : String}

/-- A reference with a name is below the size. -/
theorem lt_size_of_nameOf? (h : d.nameOf? r ≠ none) : r < d.size := by
  obtain ⟨name, hname⟩ := Option.ne_none_iff_exists'.1 h
  obtain ⟨e, he, _⟩ := Option.bind_eq_some_iff.1 hname
  exact lt_size_of_get? he

namespace Chronicled

/-- **A name leads to its newest entry.** -/
theorem newest_of_lookup (h : d.Chronicled) (hr : d.lookup name = some r) :
    d.nameOf? r = some name ∧ ∀ q, d.nameOf? q = some name → q ≤ r := by
  obtain ⟨hname, newer, older, hnamed, hnewer⟩ := List.find?_eq_some_iff_append.1 hr
  refine ⟨eq_of_beq hname, fun q hq => ?_⟩
  have hmem : q ∈ d.named := (h.complete q).2 (hq ▸ Option.some_ne_none _)
  have hsorted := h.sorted
  rw [hnamed] at hmem hsorted
  rcases List.mem_append.1 hmem with hmem | hmem
  · have hother := hnewer q hmem
    simp [hq] at hother
  · rcases List.mem_cons.1 hmem with rfl | hmem
    · exact Nat.le_refl _
    · have htail := (List.pairwise_append.1 hsorted).2.1
      exact Nat.le_of_lt ((List.pairwise_cons.1 htail).1 q hmem)

/-- **A name leads nowhere only if nothing has it.** -/
theorem lookup_eq_none_iff (h : d.Chronicled) :
    d.lookup name = none ↔ ∀ q, d.nameOf? q ≠ some name := by
  unfold lookup
  rw [List.find?_eq_none]
  constructor
  · intro hnone q hq
    have hmem : q ∈ d.named := (h.complete q).2 (hq ▸ Option.some_ne_none _)
    exact hnone q hmem (beq_iff_eq.2 hq)
  · intro hnone q _ hq
    exact hnone q (eq_of_beq hq)

/-- **What a lookup finds is the newest entry of the name.** -/
theorem lookup_eq_some_iff (h : d.Chronicled) :
    d.lookup name = some r ↔ d.nameOf? r = some name ∧ ∀ q, d.nameOf? q = some name → q ≤ r := by
  refine ⟨h.newest_of_lookup, ?_⟩
  rintro ⟨hname, hnewest⟩
  cases hq : d.lookup name with
  | none => exact absurd hname (h.lookup_eq_none_iff.1 hq r)
  | some q =>
    obtain ⟨hqname, hqnewest⟩ := h.newest_of_lookup hq
    rw [Nat.le_antisymm (hnewest q hqname) (hqnewest r hname)]

/-- Entries without names can be added. -/
theorem extendsUnnamed (h : d.Chronicled) (hgrows : d.ExtendsUnnamed d') : d'.Chronicled where
  sorted := by
    rw [hgrows.named]
    exact h.sorted
  complete r := by
    rw [hgrows.named, hgrows.nameOf?]
    exact h.complete r

/-- What is registered is the newest. -/
theorem register_named (h : d.Chronicled) {e : Entry} (he : e.name? ≠ none) :
    (d.register e).Chronicled := by
  have hnamed : (d.register e).named = d.size :: d.named := by
    simp [Dict.register, Entry.isNamed, Option.isSome_iff_ne_none, he]
  constructor
  · rw [hnamed]
    refine List.pairwise_cons.2 ⟨fun r hr => ?_, h.sorted⟩
    exact lt_size_of_nameOf? ((h.complete r).1 hr)
  · intro r
    rw [hnamed, List.mem_cons, h.complete]
    rcases Nat.lt_trichotomy r d.size with hr | rfl | hr
    · rw [nameOf?_register_of_lt hr]
      exact ⟨fun hor => hor.resolve_left (Nat.ne_of_lt hr), .inr⟩
    · rw [nameOf?_register_self]
      exact ⟨fun _ => he, fun _ => .inl rfl⟩
    · constructor
      · rintro (rfl | hold)
        · exact absurd hr (Nat.lt_irrefl _)
        · exact absurd (lt_size_of_nameOf? hold) (Nat.not_lt_of_gt hr)
      · intro hnew
        have hlt := lt_size_of_nameOf? hnew
        rw [size_register] at hlt
        exact absurd hr (Nat.not_lt_of_le (Nat.le_of_lt_succ hlt))

/-- Anything can be registered. -/
theorem register (h : d.Chronicled) (e : Entry) : (d.register e).Chronicled := by
  by_cases he : e.name? = none
  · exact h.extendsUnnamed ((ExtendsUnnamed.refl d).register he)
  · exact h.register_named he

/-- A branch can be sent elsewhere. -/
theorem setOffset (h : d.Chronicled) (r : Ref) (offset : Cell) :
    (d.setOffset r offset).Chronicled where
  sorted := h.sorted
  complete s := by
    rw [nameOf?_setOffset]
    exact h.complete s

/-- A dictionary without entries has no names. -/
theorem empty : Dict.empty.Chronicled where
  sorted := List.Pairwise.nil
  complete r := by simp [Dict.empty, Dict.nameOf?, Dict.get?]

end Chronicled

end Dict

namespace Machine

variable {allowed : Primitive → Prop} {m m' : Machine}

/-- **Whatever happens to a machine**, its names are in order. -/
theorem Develops.chronicled (h : Develops allowed m m') (hm : m.dict.Chronicled) :
    m'.dict.Chronicled := by
  induction h with
  | refl => exact hm
  | bench b _ ih => exact ih
  | compile line _ ih => exact ih.extendsUnnamed (compile_extendsUnnamed _ line)
  | bind _ he ih =>
    apply ih.register_named
    cases he <;> exact Option.some_ne_none _

/-- The list of names is in order on every machine that can be reached. -/
theorem Reachable.chronicled {allowed : Command → Prop} (h : Reachable allowed m) :
    m.dict.Chronicled := by
  obtain ⟨limits, hdev⟩ := h.exists_develops
  exact hdev.chronicled (Dict.Chronicled.empty.register _)

end Machine

end Threaded
