import Mathlib.Data.List.Induction
import Mathlib.Data.List.Sort
import Mathlib.Logic.Function.Basic
import Threaded.Proofs.AppendOnly
import Threaded.Proofs.Newest

/-!
# A shelf of dictionaries

A host can keep many dictionaries.  It registers entries in them, with any names and bodies, sends
their branches elsewhere, empties them, and copies one over another, be it to keep a dictionary or
to bring one back (`Shelf.Request`).

A dictionary has two parts, and all of these requests keep them in step (`Dict.InStep`): the list
of names has the entries of the ledger that can be asked for, each once and the newest first.  So a
lookup finds the newest entry of that very name, and never goes astray.
-/

namespace Threaded

/-! ## What can be asked for -/

/-- The entry can be asked for by this name.  A literal or a branch cannot, by any text. -/
inductive Entry.Called : Entry → String → Prop
  | primitive (name : String) (action : Primitive) : Called (.primitive name action) name
  | compound (w : Word) : Called (.compound w) w.name

/-- An entry is called by its name. -/
theorem Entry.called_iff {e : Entry} {name : String} : e.Called name ↔ e.name? = some name := by
  constructor
  · rintro (_ | _) <;> rfl
  · intro h
    cases e with
    | primitive name' action =>
      obtain rfl := Option.some.inj h
      exact .primitive name' action
    | compound w =>
      obtain rfl := Option.some.inj h
      exact .compound w
    | literal value => cases h
    | branch offset => cases h
    | zbranch offset => cases h

namespace Dict

variable {d : Dict} {r : Ref} {name : String}

/-- Under the reference stands an entry that can be asked for by the name. -/
def CalledAt (d : Dict) (name : String) (r : Ref) : Prop :=
  ∃ e, d.get? r = some e ∧ e.Called name

/-- A reference is called by the name of its entry. -/
theorem calledAt_iff : d.CalledAt name r ↔ d.nameOf? r = some name := by
  simp only [CalledAt, Entry.called_iff, nameOf?, Option.bind_eq_some_iff]

/-- The ledger and the list of names say the same. -/
structure InStep (d : Dict) : Prop where
  /-- Listed is what can be asked for, -/
  mem_named_iff : ∀ r, r ∈ d.named ↔ ∃ name, d.CalledAt name r
  /-- each once and the newest first, -/
  newestFirst : d.named.Pairwise fun r q => q < r
  /-- and nothing from outside the ledger. -/
  inside : ∀ r ∈ d.named, r < d.size
  /-- A lookup finds the newest entry of the name, -/
  lookup_eq_some_iff : ∀ name r,
    d.lookup name = some r ↔ d.CalledAt name r ∧ ∀ q, d.CalledAt name q → q ≤ r
  /-- and nothing if the name has no entry. -/
  lookup_eq_none_iff : ∀ name, d.lookup name = none ↔ ∀ q, ¬d.CalledAt name q
  /-- The names are those of the entries, the last entry first. -/
  names_eq : d.names = d.entries.toList.reverse.filterMap Entry.name?
  /-- A reference is good if it lies inside the ledger, -/
  entry_isOk_iff : ∀ r, (∃ e, d.entry r = .ok e) ↔ r < d.size
  /-- and is blamed by itself if it does not. -/
  entry_eq_error : ∀ r, d.size ≤ r → d.entry r = .error (.invalidEntry r)

/-! ## Names in order are in step with the ledger -/

/-- What a list holds, read off place by place. -/
theorem filterMap_range_getElem? {α β : Type} (f : α → Option β) (l : List α) :
    (List.range l.length).filterMap (fun i => l[i]?.bind f) = l.filterMap f := by
  induction l using List.reverseRecOn with
  | nil => rfl
  | append_singleton l a ih =>
    have hold : (List.range l.length).filterMap (fun i => (l ++ [a])[i]?.bind f) =
        (List.range l.length).filterMap fun i => l[i]?.bind f :=
      List.filterMap_congr fun i hi => by
        rw [List.getElem?_append_left (List.mem_range.1 hi)]
    have hnew : (l ++ [a])[l.length]? = some a := List.getElem?_concat_length
    rw [List.length_append, List.length_singleton, List.range_succ, List.filterMap_append, hold, ih,
      List.filterMap_append]
    simp only [List.filterMap_cons, List.filterMap_nil, hnew, Option.bind_some]

namespace Chronicled

/-- The list of names is the ledger read backwards, without what has no name. -/
theorem named_eq (h : d.Chronicled) :
    d.named = (List.range d.size).reverse.filter fun r => (d.nameOf? r).isSome := by
  have : Std.Irrefl fun r q : Ref => q < r := ⟨fun r => Nat.lt_irrefl r⟩
  have : Std.Antisymm fun r q : Ref => q < r := ⟨fun r q h h' => absurd h (Nat.lt_asymm h')⟩
  have hledger : ((List.range d.size).reverse).Pairwise fun r q => q < r :=
    List.pairwise_reverse.2 List.pairwise_lt_range
  refine h.sorted.eq_of_mem_iff (hledger.filter _) fun r => ?_
  rw [h.complete, List.mem_filter, List.mem_reverse, List.mem_range, Option.isSome_iff_ne_none]
  exact ⟨fun hname => ⟨lt_size_of_nameOf? hname, hname⟩, And.right⟩

/-- **The names are those of the entries**, the last entry first. -/
theorem names_eq (h : d.Chronicled) :
    d.names = d.entries.toList.reverse.filterMap Entry.name? := by
  have hsome : ∀ r, (if (d.nameOf? r).isSome then d.nameOf? r else none) = d.nameOf? r := by
    intro r
    cases d.nameOf? r <;> rfl
  have hledger := filterMap_range_getElem? Entry.name? d.entries.toList
  calc d.names
    _ = (List.range d.size).reverse.filterMap d.nameOf? := by
      rw [names, h.named_eq, List.filterMap_filter]
      simp only [hsome]
    _ = ((List.range d.size).filterMap d.nameOf?).reverse := List.filterMap_reverse
    _ = (d.entries.toList.filterMap Entry.name?).reverse := by
      rw [← hledger]
      simp only [Array.getElem?_toList, Array.length_toList]
      rfl
    _ = d.entries.toList.reverse.filterMap Entry.name? := List.filterMap_reverse.symm

/-- **Where the names are in order**, the ledger and the list of names are in step. -/
theorem inStep (h : d.Chronicled) : d.InStep where
  mem_named_iff r := by
    simp only [calledAt_iff, h.complete, Option.ne_none_iff_exists']
  newestFirst := h.sorted
  inside r hr := lt_size_of_nameOf? ((h.complete r).1 hr)
  lookup_eq_some_iff name r := by
    simp only [calledAt_iff]
    exact h.lookup_eq_some_iff
  lookup_eq_none_iff name := by
    simp only [calledAt_iff]
    exact h.lookup_eq_none_iff
  names_eq := h.names_eq
  entry_isOk_iff := d.entry_isOk_iff
  entry_eq_error r hr := by
    rw [entry, get?_eq_none_iff.2 hr]

end Chronicled

end Dict

/-! ## The requests of a host -/

/-- Dictionaries, by the place where they are kept. -/
abbrev Shelf := Nat → Dict

namespace Shelf

/-- What a host can ask of its dictionaries. -/
inductive Request
  | register (place : Nat) (e : Entry)
  /-- Sends the branch at `r` by `offset`. -/
  | patch (place : Nat) (r : Ref) (offset : Cell)
  | teardown (place : Nat)
  /-- Puts what stands at `source` to `target`, to keep it there or to bring it back. -/
  | copy (source target : Nat)
  deriving DecidableEq, Repr

/-- A shelf of empty dictionaries. -/
def fresh : Shelf :=
  fun _ => Dict.empty

/-- The shelf with another dictionary at one place. -/
def put (s : Shelf) (place : Nat) (d : Dict) : Shelf :=
  Function.update s place d

/-- Grants a request, if it can be.  The answer to a registration is the new reference. -/
def grant (s : Shelf) : Request → Except Error (Option Ref) × Shelf
  | .register place e => (.ok (some (s place).size), s.put place ((s place).register e))
  | .patch place r offset =>
    match (s place).patch r offset with
    | .ok d => (.ok none, s.put place d)
    | .error e => (.error e, s)
  | .teardown place => (.ok none, s.put place (s place).teardown)
  | .copy source target => (.ok none, s.put target (s source))

/-- The shelf after a host has asked all this, whatever was refused. -/
def grantAll (s : Shelf) : List Request → Shelf
  | [] => s
  | q :: rest => (s.grant q).2.grantAll rest

/-- What holds of the dictionaries on a shelf, and of what is asked of them next. -/
structure Sound (s : Shelf) : Prop where
  inStep : ∀ place, (s place).InStep
  /-- A registration gives the length of the ledger for a reference, and the entry is found there. -/
  register : ∀ place e, ∃ s', s.grant (.register place e) = (.ok (some (s place).size), s') ∧
    (s' place).entry (s place).size = .ok e ∧ (s' place).size = (s place).size + 1
  /-- Where a branch goes is nothing to the names. -/
  patch : ∀ place r offset answer s', s.grant (.patch place r offset) = (answer, s') →
    (s' place).size = (s place).size ∧ (s' place).named = (s place).named ∧
      ∀ q, (s' place).nameOf? q = (s place).nameOf? q

variable {s s' : Shelf}

/-- What is put in a place is in that place. -/
theorem put_self (s : Shelf) (place : Nat) (d : Dict) : s.put place d place = d :=
  Function.update_self ..

/-- If all dictionaries are of a kind, and another one is, they are with that one among them. -/
theorem forall_put {p : Dict → Prop} (hs : ∀ place, p (s place)) {d : Dict} (hd : p d)
    (target place : Nat) : p (s.put target d place) := by
  by_cases h : place = target
  · rw [h, put_self]
    exact hd
  · rw [put, Function.update_of_ne h]
    exact hs place

/-- **A request keeps the names in order**, in all dictionaries. -/
theorem chronicled_grant (hs : ∀ place, (s place).Chronicled) (q : Request) (place : Nat) :
    ((s.grant q).2 place).Chronicled := by
  cases q with
  | register target e => exact forall_put hs ((hs target).register e) target place
  | patch target r offset =>
    simp only [grant]
    cases hpatch : (s target).patch r offset with
    | error e => exact hs place
    | ok d =>
      rw [Dict.eq_of_patch hpatch]
      exact forall_put hs ((hs target).setOffset r offset) target place
  | teardown target => exact forall_put hs .empty target place
  | copy source target => exact forall_put hs (hs source) target place

/-- All requests together do. -/
theorem chronicled_grantAll (requests : List Request) (hs : ∀ place, (s place).Chronicled)
    (place : Nat) : (s.grantAll requests place).Chronicled := by
  induction requests generalizing s with
  | nil => exact hs place
  | cons q rest ih => exact ih (chronicled_grant hs q)

/-- Sending a branch elsewhere changes no name and no place, and neither does a refusal. -/
theorem same_names_of_patch {answer : Except Error (Option Ref)} {place : Nat} {r : Ref}
    {offset : Cell} (h : s.grant (.patch place r offset) = (answer, s')) :
    (s' place).size = (s place).size ∧ (s' place).named = (s place).named ∧
      ∀ q, (s' place).nameOf? q = (s place).nameOf? q := by
  unfold grant at h
  cases hpatch : (s place).patch r offset with
  | error e =>
    simp only [hpatch, Prod.mk.injEq] at h
    obtain ⟨-, rfl⟩ := h
    exact ⟨rfl, rfl, fun _ => rfl⟩
  | ok d =>
    simp only [hpatch, Prod.mk.injEq] at h
    obtain ⟨-, rfl⟩ := h
    rw [put_self, Dict.eq_of_patch hpatch]
    exact ⟨Dict.size_setOffset .., rfl, fun q => Dict.nameOf?_setOffset _ r q offset⟩

/-- **However a host mixes its requests**, the parts of every dictionary stay in step. -/
theorem sound_grantAll (requests : List Request) : (fresh.grantAll requests).Sound where
  inStep place := (chronicled_grantAll requests (fun _ => .empty) place).inStep
  register place e := by
    refine ⟨_, rfl, ?_, ?_⟩
    · rw [put_self, Dict.entry, Dict.get?_register_self]
    · rw [put_self, Dict.size_register]
  patch _ _ _ _ _ h := same_names_of_patch h

example :
    let kept := [.register 0 (.primitive "X" .nop), .register 0 (.literal 5), .copy 0 1]
    let s := fresh.grantAll (kept ++ [.register 0 (.compound ⟨"X", #[1]⟩), .copy 0 2, .copy 1 0])
    (s 0).lookup "X" = some 0 ∧ (s 2).lookup "X" = some 2 ∧ (s 2).names = ["X", "X"] := by
  decide

end Shelf

end Threaded
