import Mathlib.Data.List.Forall2
import Threaded.Listing
import Threaded.Proofs.Soundness

/-!
# Dictionaries that are alike

Two dictionaries can say the same in different places: what one has at some reference the other
has at another.  A **renaming** tells which references stand for which, and the dictionaries match
along it (`Dict.Matches`) if such references have entries that are alike: the same but for the
references in them, which stand for one another again.  They are alike (`Dict.Alike`) if besides
the references with a name stand for one another, in order.

Whatever does not show a reference cannot tell such dictionaries apart: a name is found in both or
in neither (`Alike.lookup`), the names and the listings are the same texts (`Alike.names_eq`,
`Alike.see_eq`), and a word passes the check where the word that stands for it does
(`Matches.check_eq`).  They stay alike when entries without names are added to either
(`Alike.extendsUnnamed`), and when the same is bound in both (`Alike.register`).
-/

namespace Threaded

/-! ## Renamings -/

/-- Which references of one dictionary stand for which of another. -/
abbrev Renaming := Ref → Ref → Prop

namespace Renaming

variable {R R' R'' : Renaming}

/-- Whatever stood for one another still does. -/
def Within (R R' : Renaming) : Prop :=
  ∀ r r', R r r' → R' r r'

/-- A renaming is part of itself. -/
theorem Within.refl (R : Renaming) : R.Within R :=
  fun _ _ h => h

/-- A part of a part is a part. -/
theorem Within.trans (h : R.Within R') (h' : R'.Within R'') : R.Within R'' :=
  fun r r' hr => h' r r' (h r r' hr)

/-- The renaming by which so many references from `n` on also stand for those from `n'` on, in
order. -/
def extend (R : Renaming) (n n' count : Nat) : Renaming :=
  fun r r' => R r r' ∨ ∃ i < count, r = n + i ∧ r' = n' + i

/-- A renaming is part of what it is extended to. -/
theorem within_extend (R : Renaming) (n n' count : Nat) : R.Within (R.extend n n' count) :=
  fun _ _ => .inl

end Renaming

/-- Words of one name whose slots stand for one another. -/
structure Word.Alike (R : Renaming) (w w' : Word) : Prop where
  name : w.name = w'.name
  body : List.Forall₂ R w.body.toList w'.body.toList

/-- Words stay alike along a larger renaming. -/
theorem Word.Alike.mono {R R' : Renaming} (hR : R.Within R') {w w' : Word} (h : w.Alike R w') :
    w.Alike R' w' :=
  ⟨h.name, h.body.imp hR⟩

/-- Entries that differ in the references they hold alone.  A primitive must be one that does not
look at references. -/
inductive Entry.Alike (R : Renaming) : Entry → Entry → Prop
  | primitive (name : String) {action : Primitive} (h : action.Standard) :
    Alike R (.primitive name action) (.primitive name action)
  | compound {w w' : Word} (h : w.Alike R w') : Alike R (.compound w) (.compound w')
  | literal (value : Cell) : Alike R (.literal value) (.literal value)
  | branch (offset : Cell) : Alike R (.branch offset) (.branch offset)
  | zbranch (offset : Cell) : Alike R (.zbranch offset) (.zbranch offset)

namespace Entry.Alike

variable {R R' : Renaming} {e e' : Entry}

/-- Entries stay alike along a larger renaming. -/
theorem mono (hR : R.Within R') (h : e.Alike R e') : e.Alike R' e' := by
  cases h with
  | primitive name h => exact .primitive name h
  | compound h => exact .compound (h.mono hR)
  | literal value => exact .literal value
  | branch offset => exact .branch offset
  | zbranch offset => exact .zbranch offset

/-- Entries that are alike have one name. -/
theorem name?_eq (h : e.Alike R e') : e.name? = e'.name? := by
  cases h with
  | compound h => exact congrArg some h.name
  | _ => rfl

/-- Entries that are alike have one offset. -/
theorem offset?_eq (h : e.Alike R e') : e.offset? = e'.offset? := by
  cases h <;> rfl

/-- Entries that are alike are listed alike. -/
theorem list_eq (h : e.Alike R e') (ip : Nat) : e.list ip = e'.list ip := by
  cases h with
  | compound h => simp only [Entry.list, h.name]
  | _ => rfl

end Entry.Alike

/-! ## Matching entries -/

namespace Dict

/-- References that stand for one another have entries that are alike. -/
def Matches (R : Renaming) (d d' : Dict) : Prop :=
  ∀ r r', R r r' → ∃ e e', d.get? r = some e ∧ d'.get? r' = some e' ∧ e.Alike R e'

variable {R : Renaming} {d d' d₁ d₁' : Dict} {r r' : Ref}

namespace Matches

/-- Where two references correspond, both are good, and their entries are alike. -/
theorem entry (h : Matches R d d') (hr : R r r') :
    ∃ e e', d.entry r = .ok e ∧ d'.entry r' = .ok e' ∧ e.Alike R e' := by
  obtain ⟨e, e', he, he', halike⟩ := h r r' hr
  refine ⟨e, e', ?_, ?_, halike⟩
  · simp only [Dict.entry, he]
  · simp only [Dict.entry, he']

/-- Where two references correspond, they have one name. -/
theorem nameOf?_eq (h : Matches R d d') (hr : R r r') : d.nameOf? r = d'.nameOf? r' := by
  obtain ⟨e, e', he, he', halike⟩ := h r r' hr
  simp only [nameOf?, he, he', Option.bind_some, halike.name?_eq]

/-- Words that correspond pass or fail the check of their slots alike. -/
theorem checkFrom_eq (h : Matches R d d') (len : Nat) {rs rs' : List Ref}
    (hrs : List.Forall₂ R rs rs') : (ip : Nat) →
      Jump.checkFrom d len ip rs = Jump.checkFrom d' len ip rs' := by
  induction hrs with
  | nil => exact fun _ => rfl
  | @cons r r' rs rs' hr _ ih =>
    intro ip
    obtain ⟨e, e', he, he', halike⟩ := h r r' hr
    have hslot : Jump.checkSlot d len ip r = Jump.checkSlot d' len ip r' := by
      simp only [Jump.checkSlot, he, he', halike.offset?_eq]
    simp only [Jump.checkFrom, hslot, ih]

/-- **Words that stand for one another pass the check alike.** -/
theorem check_eq (h : Matches R d d') {body body' : Array Ref}
    (hbody : List.Forall₂ R body.toList body'.toList) :
    Jump.check d body = Jump.check d' body' := by
  have hsize : body.size = body'.size := hbody.length_eq
  unfold Jump.check
  rw [hsize]
  exact h.checkFrom_eq _ hbody 0

/-- Words that correspond are listed alike. -/
theorem listFrom_eq (h : Matches R d d') {rs rs' : List Ref} (hrs : List.Forall₂ R rs rs') :
    (ip : Nat) → d.listFrom ip rs = d'.listFrom ip rs' := by
  induction hrs with
  | nil => exact fun _ => rfl
  | cons hr _ ih =>
    intro ip
    obtain ⟨e, e', he, he', halike⟩ := h.entry hr
    simp only [listFrom, Dict.list, he, he', Except.map, halike.list_eq, ih]

/-- What stood for one another still does in larger dictionaries. -/
theorem grow (h : Matches R d d') (hd : d.Extends d₁) (hd' : d'.Extends d₁') :
    Matches R d₁ d₁' := by
  intro r r' hr
  obtain ⟨e, e', he, he', halike⟩ := h r r' hr
  exact ⟨e, e', hd.get? he, hd'.get? he', halike⟩

/-- Entries that are alike can be registered in both. -/
theorem register (h : Matches R d d') {e e' : Entry} (he : e.Alike R e') :
    Matches (R.extend d.size d'.size 1) (d.register e) (d'.register e') := by
  have hmono := R.within_extend d.size d'.size 1
  rintro r r' (hr | ⟨i, hi, rfl, rfl⟩)
  · obtain ⟨f, f', hf, hf', halike⟩ := h r r' hr
    exact ⟨f, f', (Extends.register d e).get? hf, (Extends.register d' e').get? hf',
      halike.mono hmono⟩
  · obtain rfl : i = 0 := Nat.lt_one_iff.1 hi
    exact ⟨e, e', get?_register_self d e, get?_register_self d' e', he.mono hmono⟩

end Matches

/-! ## Matching names -/

/-- Matching dictionaries whose names stand for one another in order. -/
structure Alike (R : Renaming) (d d' : Dict) : Prop where
  entries : Matches R d d'
  named : List.Forall₂ R d.named d'.named
  nop : R Threaded.nop Threaded.nop

namespace Alike

/-- **A name leads to references that stand for one another**, or to none in both. -/
theorem lookup (h : Alike R d d') (name : String) :
    Option.Rel R (d.lookup name) (d'.lookup name) := by
  unfold Dict.lookup
  have hnamed := h.named
  generalize d.named = rs, d'.named = rs' at hnamed
  induction hnamed with
  | nil => exact .none
  | cons hr _ ih =>
    rw [List.find?_cons, List.find?_cons, h.entries.nameOf?_eq hr]
    split
    · exact .some hr
    · exact ih

/-- A name is known to both or to neither. -/
theorem lookup_eq_none_iff (h : Alike R d d') (name : String) :
    d.lookup name = none ↔ d'.lookup name = none := by
  have hrel := h.lookup name
  generalize d.lookup name = found, d'.lookup name = found' at hrel ⊢
  cases hrel <;> simp

/-- **The names are the same.** -/
theorem names_eq (h : Alike R d d') : d.names = d'.names := by
  unfold names
  have hnamed := h.named
  generalize d.named = rs, d'.named = rs' at hnamed
  induction hnamed with
  | nil => rfl
  | cons hr _ ih => simp only [List.filterMap_cons, h.entries.nameOf?_eq hr, ih]

/-- **The listings are the same.** -/
theorem see_eq (h : Alike R d d') (name : String) : d.see name = d'.see name := by
  have hrel := h.lookup name
  unfold see
  generalize d.lookup name = found, d'.lookup name = found' at hrel ⊢
  cases hrel with
  | none => rfl
  | some hr =>
    obtain ⟨e, e', he, he', halike⟩ := h.entries.entry hr
    simp only [he, he']
    cases halike with
    | compound hw => exact h.entries.listFrom_eq hw.body 0
    | _ => rfl

/-- **Entries without names can be added to either.** -/
theorem extendsUnnamed (h : Alike R d d') (hd : d.ExtendsUnnamed d₁)
    (hd' : d'.ExtendsUnnamed d₁') : Alike R d₁ d₁' where
  entries := h.entries.grow hd.toExtends hd'.toExtends
  named := by
    rw [hd.named, hd'.named]
    exact h.named
  nop := h.nop

/-- **The same can be bound in both.** -/
theorem register (h : Alike R d d') {e e' : Entry} (he : e.Alike R e') :
    Alike (R.extend d.size d'.size 1) (d.register e) (d'.register e') where
  entries := h.entries.register he
  named := by
    have hold : List.Forall₂ (R.extend d.size d'.size 1) d.named d'.named :=
      h.named.imp (R.within_extend _ _ _)
    unfold Dict.register Entry.isNamed
    rw [he.name?_eq]
    dsimp only
    split
    · exact .cons (.inr ⟨0, Nat.zero_lt_one, rfl, rfl⟩) hold
    · exact hold
  nop := .inl h.nop

end Alike

/-! ## A dictionary and what it grows into -/

/-- A reference inside the ledger stands for itself. -/
def Old (d : Dict) : Renaming :=
  fun r r' => r = r' ∧ r < d.size

/-- References below the size correspond to themselves. -/
theorem forall₂_old {rs : List Ref} (h : ∀ r ∈ rs, r < d.size) : List.Forall₂ d.Old rs rs :=
  List.forall₂_same.2 fun r hr => ⟨rfl, h r hr⟩

/-- A word that passes the check is alike itself. -/
theorem forall₂_old_of_check {body : Array Ref} (h : Jump.check d body = .ok ()) :
    List.Forall₂ d.Old body.toList body.toList :=
  forall₂_old fun _ hr => lt_size_of_check h (Array.mem_toList_iff.1 hr)

/-- **A sound dictionary matches what it grows into.** -/
theorem Sound.matches_old (h : d.Sound Primitive.Standard) (hgrows : d.Extends d') :
    Matches d.Old d d' := by
  rintro r _ ⟨rfl, hr⟩
  obtain ⟨e, he⟩ : ∃ e, d.get? r = some e :=
    Option.ne_none_iff_exists'.1 fun hnone => Nat.not_le_of_lt hr (get?_eq_none_iff.1 hnone)
  refine ⟨e, e, he, hgrows.get? he, ?_⟩
  cases e with
  | primitive name action => exact .primitive name (h.bound r name action he)
  | compound w => exact .compound ⟨rfl, forall₂_old_of_check (h.checked r w he)⟩
  | literal value => exact .literal value
  | branch offset => exact .branch offset
  | zbranch offset => exact .zbranch offset

/-- **A sound dictionary is alike what it is with more entries that have no name**: its names still
lead to the same references. -/
theorem Sound.alike_old (h : d.Sound Primitive.Standard) (hnamed : ∀ r ∈ d.named, r < d.size)
    (hgrows : d.ExtendsUnnamed d') : Alike d.Old d d' where
  entries := h.matches_old hgrows.toExtends
  named := by
    rw [hgrows.named]
    exact forall₂_old hnamed
  nop := ⟨rfl, lt_size_of_get? h.nop⟩

end Dict

end Threaded
