import Threaded.Proofs.Jump

/-!
# How a dictionary grows

Two orders on dictionaries say what a piece of work may do to them.

* `Extends`: every entry keeps its reference and stays as it is, and the names so far are an end
  of the names afterwards.  Whatever is good of a word in the smaller dictionary, such as that
  its references and jumps are good, is good of it in the larger one (`check_eq_ok`).
* `ExtendsUnnamed`: besides, what is new has no name, so nothing that is asked by name can tell
  the two dictionaries apart (`lookup_eq`, `names_eq`).  This is what assembling a line does.  It
  is stated against the dictionary at the start of the line, so a branch registered on the way
  may be sent elsewhere (`setOffset`), and one from before may not.
-/

namespace Threaded.Dict

/-! ## The two orders -/

/-- Every entry is kept, and the names so far are an end of the names. -/
structure Extends (d d' : Dict) : Prop where
  get?_of_lt : ∀ r < d.size, d'.get? r = d.get? r
  named : d.named <:+ d'.named

/-- Every entry is kept, and nothing has a name that had none. -/
structure ExtendsUnnamed (d d' : Dict) : Prop where
  get?_of_lt : ∀ r < d.size, d'.get? r = d.get? r
  named : d'.named = d.named
  nameOf? : ∀ r, d'.nameOf? r = d.nameOf? r

variable {d d' d'' : Dict} {r : Ref} {e : Entry}

/-- From the size on there are no entries. -/
theorem get?_eq_none_iff : d.get? r = none ↔ d.size ≤ r := by
  simp [get?, size]

/-- An entry lies below the size. -/
theorem lt_size_of_get? (h : d.get? r = some e) : r < d.size := by
  apply Nat.lt_of_not_le
  intro hr
  rw [get?_eq_none_iff.2 hr] at h
  simp at h

/-- The slots of a word that passes the check lie inside the ledger. -/
theorem lt_size_of_check {body : Array Ref} (h : Jump.check d body = .ok ())
    (hr : r ∈ body) : r < d.size := by
  obtain ⟨ip, hip⟩ := Array.mem_iff_getElem?.1 hr
  obtain ⟨e, he, _⟩ := Jump.checkSlot_eq_ok_iff.1 (Jump.check_eq_ok_iff.1 h ip r hip)
  exact lt_size_of_get? he

/-- A name that is found leads to an entry of that name, which is no branch. -/
theorem get?_of_lookup {name : String} (h : d.lookup name = some r) :
    ∃ e, d.get? r = some e ∧ e.name? = some name ∧ e.offset? = none := by
  have hfound := List.find?_some h
  have hname : d.nameOf? r = some name := eq_of_beq hfound
  obtain ⟨e, he, hn⟩ := Option.bind_eq_some_iff.1 hname
  refine ⟨e, he, hn, ?_⟩
  cases e <;> first | rfl | cases hn

/-- A name that is found leads into the ledger. -/
theorem lt_size_of_lookup {name : String} (h : d.lookup name = some r) : r < d.size := by
  obtain ⟨e, he, _⟩ := get?_of_lookup h
  exact lt_size_of_get? he

/-- After a registration there are the entries from before and the new one. -/
theorem get?_register {e' : Entry} (h : (d.register e).get? r = some e') :
    d.get? r = some e' ∨ e' = e := by
  have hlt := lt_size_of_get? h
  rw [size_register] at hlt
  by_cases hr : r = d.size
  · subst hr
    rw [get?_register_self] at h
    exact .inr (Option.some.inj h).symm
  · rw [get?_register_of_lt (Nat.lt_of_le_of_ne (Nat.le_of_lt_succ hlt) hr)] at h
    exact .inl h

/-- Registering an entry leaves the names of the others. -/
theorem nameOf?_register_of_lt (h : r < d.size) : (d.register e).nameOf? r = d.nameOf? r := by
  rw [nameOf?, nameOf?, get?_register_of_lt h]

/-- The name of the entry that was registered last. -/
@[simp] theorem nameOf?_register_self (d : Dict) (e : Entry) :
    (d.register e).nameOf? d.size = e.name? := by
  rw [nameOf?, get?_register_self, Option.bind_some]

/-- A branch has no name, wherever it goes. -/
@[simp] theorem nameOf?_setOffset (d : Dict) (r s : Ref) (offset : Cell) :
    (d.setOffset r offset).nameOf? s = d.nameOf? s := by
  unfold Dict.nameOf?
  by_cases hrs : s = r
  · subst hrs
    rw [get?_setOffset_self]
    cases d.get? s <;> simp
  · rw [get?_setOffset_of_ne hrs]

namespace Extends

/-- A dictionary extends itself. -/
theorem refl (d : Dict) : Extends d d :=
  ⟨fun _ _ => rfl, List.suffix_refl _⟩

/-- An extension is at least as large. -/
theorem size_le (h : Extends d d') : d.size ≤ d'.size := by
  apply Nat.le_of_not_lt
  intro hlt
  have hlast := h.get?_of_lt d'.size hlt
  rw [get?_eq_none_iff.2 (Nat.le_refl _)] at hlast
  have := get?_eq_none_iff.1 hlast.symm
  omega

/-- An extension of an extension is one. -/
theorem trans (h : Extends d d') (h' : Extends d' d'') : Extends d d'' where
  get?_of_lt r hr := by
    have := h.size_le
    rw [h'.get?_of_lt r (by omega), h.get?_of_lt r hr]
  named := h.named.trans h'.named

/-- An entry is found in every extension. -/
theorem get? (h : Extends d d') (he : d.get? r = some e) : d'.get? r = some e := by
  rw [h.get?_of_lt r (lt_size_of_get? he), he]

/-- Registering an entry extends the dictionary. -/
theorem register (d : Dict) (e : Entry) : Extends d (d.register e) where
  get?_of_lt _ hr := get?_register_of_lt hr
  named := by
    unfold Dict.register
    split
    · exact List.suffix_cons _ _
    · exact List.suffix_refl _

/-- A slot that passes the check still passes it. -/
theorem checkSlot_eq_ok (h : Extends d d') {len ip : Nat}
    (hs : Jump.checkSlot d len ip r = .ok ()) : Jump.checkSlot d' len ip r = .ok () := by
  obtain ⟨e, he, ho⟩ := Jump.checkSlot_eq_ok_iff.1 hs
  exact Jump.checkSlot_eq_ok_iff.2 ⟨e, h.get? he, ho⟩

/-- **A word that passes the check still passes it.** -/
theorem check_eq_ok (h : Extends d d') {body : Array Ref} (hc : Jump.check d body = .ok ()) :
    Jump.check d' body = .ok () :=
  Jump.check_eq_ok_iff.2 fun ip r hr => h.checkSlot_eq_ok (Jump.check_eq_ok_iff.1 hc ip r hr)

end Extends

namespace ExtendsUnnamed

/-- Adding entries without names is adding entries. -/
theorem toExtends (h : ExtendsUnnamed d d') : Extends d d' :=
  ⟨h.get?_of_lt, by simp only [h.named, List.suffix_refl]⟩

/-- Adding nothing adds no name. -/
theorem refl (d : Dict) : ExtendsUnnamed d d :=
  ⟨fun _ _ => rfl, rfl, fun _ => rfl⟩

/-- Neither of two additions in turn adds a name. -/
theorem trans (h : ExtendsUnnamed d d') (h' : ExtendsUnnamed d' d'') : ExtendsUnnamed d d'' where
  get?_of_lt := (h.toExtends.trans h'.toExtends).get?_of_lt
  named := h'.named.trans h.named
  nameOf? r := (h'.nameOf? r).trans (h.nameOf? r)

/-- An entry with a name is from before. -/
theorem get?_of_named (h : ExtendsUnnamed d d') (he : d'.get? r = some e)
    (hname : e.name? ≠ none) : d.get? r = some e := by
  by_cases hr : r < d.size
  · rw [← h.get?_of_lt r hr, he]
  · have hnone : d.get? r = none := get?_eq_none_iff.2 (Nat.le_of_not_lt hr)
    have hsame := h.nameOf? r
    unfold Dict.nameOf? at hsame
    rw [he, hnone] at hsame
    exact absurd hsame hname

/-- A name is found where it was found. -/
theorem lookup_eq (h : ExtendsUnnamed d d') (name : String) : d'.lookup name = d.lookup name := by
  unfold lookup
  simp only [h.named, h.nameOf?]

/-- Entries without names leave the list of names. -/
theorem names_eq (h : ExtendsUnnamed d d') : d'.names = d.names := by
  have hname : d'.nameOf? = d.nameOf? := funext h.nameOf?
  unfold names
  rw [h.named, hname]

/-- An entry without a name can be registered. -/
theorem register (h : ExtendsUnnamed d d') (he : e.name? = none) :
    ExtendsUnnamed d (d'.register e) := by
  refine h.trans ⟨fun _ hr => get?_register_of_lt hr, ?_, fun r => ?_⟩
  · simp [Dict.register, Entry.isNamed, he]
  · rcases Nat.lt_trichotomy r d'.size with hr | rfl | hr
    · exact nameOf?_register_of_lt hr
    · have hnone : d'.get? d'.size = none := get?_eq_none_iff.2 (Nat.le_refl _)
      rw [nameOf?_register_self, Dict.nameOf?, hnone]
      exact he
    · unfold Dict.nameOf?
      have hnew : (d'.register e).get? r = none :=
        get?_eq_none_iff.2 (by rw [size_register]; omega)
      have hnone : d'.get? r = none := get?_eq_none_iff.2 (Nat.le_of_lt hr)
      rw [hnew, hnone]

/-- A branch that is new can be sent elsewhere. -/
theorem setOffset (h : ExtendsUnnamed d d') (hr : d.size ≤ r) (offset : Cell) :
    ExtendsUnnamed d (d'.setOffset r offset) where
  get?_of_lt s hs := by
    have hne : s ≠ r := fun heq => by omega
    rw [get?_setOffset_of_ne hne, h.get?_of_lt s hs]
  named := h.named
  nameOf? s := by rw [nameOf?_setOffset, h.nameOf? s]

end ExtendsUnnamed

end Threaded.Dict
