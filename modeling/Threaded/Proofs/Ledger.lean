import Threaded.Proofs.Names
import Threaded.Proofs.Runs
import Threaded.Proofs.Soundness

/-!
# The ledger

What is true of the dictionary of every machine that a host can have, and at every point of every
run (`ledger_invariant`):

* a compound refers to entries only that are older than itself, so calls never come back to where
  they started, however often a name is bound again;
* a branch in the body of a compound lands on the body, over the integers;
* whatever has a name can be asked for, as one token; the NOP of the boot alone may have a name
  that does not fit, and it stands at reference zero.

The ledger also holds what lines have left behind that did not compile: branches that were never
closed, or that land nowhere.  Nothing is said about those, and no compound has them in a slot where
they could do harm.

Two of the invariants are kept by whatever can happen to a machine (`Develops.layered`,
`Develops.named`); that branches land is what a sound dictionary gives (`Dict.Sound.lands`).
-/

namespace Threaded

namespace Dict

/-! ## Calls -/

/-- The compound `r` has `q` in one of its slots. -/
def Calls (d : Dict) (r q : Ref) : Prop :=
  ∃ w, d.get? r = some (.compound w) ∧ q ∈ w.body

/-- A compound calls older entries only. -/
def Layered (d : Dict) : Prop :=
  ∀ r q, d.Calls r q → q < r

/-- The entry `r` can be reached from a word: it is in a slot of the word, or of a compound that can
be reached. -/
def Reaches (d : Dict) (body : Array Ref) (r : Ref) : Prop :=
  ∃ q ∈ body, Relation.ReflTransGen d.Calls q r

variable {allowed : Primitive → Prop} {d d' : Dict} {w : Word} {body : Array Ref} {r s : Ref}

/-- A word reaches what is in its slots. -/
theorem Reaches.slot (hr : r ∈ body) : d.Reaches body r :=
  ⟨r, hr, .refl⟩

/-- What a compound reaches is reached from the slot that it is in. -/
theorem Reaches.through (hr : r ∈ body) (hw : d.get? r = some (.compound w))
    (hs : d.Reaches w.body s) : d.Reaches body s := by
  obtain ⟨q, hq, hqs⟩ := hs
  exact ⟨r, hr, .head ⟨w, hw, hq⟩ hqs⟩

/-- What is reached is in a slot, or it is reached from the compound in a slot. -/
theorem Reaches.cases (h : d.Reaches body s) :
    s ∈ body ∨ ∃ r ∈ body, ∃ w, d.get? r = some (.compound w) ∧ d.Reaches w.body s := by
  obtain ⟨q, hq, hqs⟩ := h
  rcases Relation.ReflTransGen.cases_head hqs with rfl | ⟨q', ⟨w, hw, hq'⟩, hq's⟩
  · exact .inl hq
  · exact .inr ⟨q, hq, w, hw, q', hq', hq's⟩

/-- **What can be reached lasts** while a layered dictionary grows. -/
theorem Reaches.of_extends (hgrows : d.Extends d') (hd : d.Layered)
    (hbody : ∀ q ∈ body, q < d.size) (h : d'.Reaches body s) : d.Reaches body s ∧ s < d.size := by
  obtain ⟨q, hq, hqs⟩ := h
  induction hqs with
  | refl => exact ⟨.slot hq, hbody q hq⟩
  | @tail r s _ hcall ih =>
    obtain ⟨w, hw, hs⟩ := hcall
    obtain ⟨⟨q', hq', hq'r⟩, hr⟩ := ih
    rw [hgrows.get?_of_lt r hr] at hw
    exact ⟨⟨q', hq', hq'r.tail ⟨w, hw, hs⟩⟩, Nat.lt_trans (hd r s ⟨w, hw, hs⟩) hr⟩

/-- **Calls do not come back.** -/
theorem Layered.acyclic (h : d.Layered) (r : Ref) : ¬ Relation.TransGen d.Calls r r := by
  have hlt : ∀ q, Relation.TransGen d.Calls r q → q < r := by
    intro q hq
    induction hq with
    | single hcall => exact h _ _ hcall
    | tail _ hcall ih => exact Nat.lt_trans (h _ _ hcall) ih
  exact fun hcycle => Nat.lt_irrefl r (hlt r hcycle)

/-- A dictionary stays layered when entries without names are added. -/
theorem Layered.extendsUnnamed (h : d.Layered) (hgrows : d.ExtendsUnnamed d') : d'.Layered := by
  rintro r q ⟨w, hr, hq⟩
  exact h r q ⟨w, hgrows.get?_of_named hr (Option.some_ne_none _), hq⟩

/-- A dictionary stays layered when a word is registered that passes the check. -/
theorem Layered.register (h : d.Layered) {e : Entry}
    (he : ∀ w, e = .compound w → Jump.check d w.body = .ok ()) : (d.register e).Layered := by
  rintro r q ⟨w, hr, hq⟩
  by_cases hlt : r < d.size
  · rw [get?_register_of_lt hlt] at hr
    exact h r q ⟨w, hr, hq⟩
  · have hle : r < (d.register e).size := lt_size_of_get? hr
    rw [size_register] at hle
    obtain rfl : r = d.size := Nat.le_antisymm (Nat.le_of_lt_succ hle) (Nat.le_of_not_lt hlt)
    rw [get?_register_self] at hr
    exact lt_size_of_check (he w (Option.some.inj hr)) hq

/-! ## Branches -/

/-- **A branch in a compound lands on it**, over the integers.  The bound on the size of a word is
that of everything in memory. -/
theorem Sound.lands (h : d.Sound allowed) {r q : Ref} {p : Nat} {e : Entry} {offset : Cell}
    (hr : d.get? r = some (.compound w)) (hw : w.body.size < 2 ^ 63 - 1)
    (hq : w.body[p]? = some q) (he : d.get? q = some e) (ho : e.offset? = some offset) :
    0 ≤ (p : Int) + offset.toInt + 1 ∧ (p : Int) + offset.toInt + 1 ≤ w.body.size := by
  obtain ⟨e', he', hjump⟩ :=
    Jump.checkSlot_eq_ok_iff.1 (Jump.check_eq_ok_iff.1 (h.checked r w hr) p q hq)
  obtain rfl : e = e' := Option.some.inj (he.symm.trans he')
  obtain ⟨t, ht⟩ := hjump offset ho
  have hp : p < w.body.size := (Array.getElem?_eq_some_iff.1 hq).1
  rw [Jump.target_eq hp hw] at ht
  split at ht
  · assumption
  · simp at ht

end Dict

/-! ## Names -/

/-- A text that is one token: neither empty nor cut by a separator, and it fits. -/
structure IsToken (nameLen : Nat) (name : String) : Prop where
  nonempty : name ≠ ""
  noSpace : ' ' ∉ name.toList
  noNul : '\x00' ∉ name.toList
  fits : name.utf8ByteSize ≤ nameLen
  alone : tokenize nameLen name = .ok [⟨name, 0⟩]

/-- A name that is accepted is a token. -/
theorem IsToken.of_isName {nameLen : Nat} {name : String} (h : isName nameLen name = true) :
    IsToken nameLen name := by
  obtain ⟨hne, hsep, hfit⟩ := isName_iff.1 h
  refine ⟨hne, ?_, ?_, hfit, tokenize_of_isName h⟩
  · exact fun hc => absurd (hsep _ hc) (by decide)
  · exact fun hc => absurd (hsep _ hc) (by decide)

/-- Whatever has a name, apart from the NOP of the boot, has one that can be a token. -/
def Dict.Named (nameLen : Nat) (d : Dict) : Prop :=
  ∀ r name, d.nameOf? r = some name → r = nop ∨ isName nameLen name = true

namespace Machine

variable {allowed : Primitive → Prop} {m m' : Machine}

/-- A word that can be bound passes the check. -/
theorem Bindable.check {e : Entry} (h : m.Bindable allowed e) (w : Word) (he : e = .compound w) :
    Jump.check m.dict w.body = .ok () := by
  subst he
  cases h with
  | compound _ hw => exact hw

/-- A name that can be bound is accepted. -/
theorem Bindable.isName {e : Entry} {name : String} (h : m.Bindable allowed e)
    (hname : e.name? = some name) : Threaded.isName m.limits.nameLen name = true := by
  cases h with
  | primitive hp | compound hp => rwa [← Option.some.inj hname]

/-- **Compounds stay above what they call.** -/
theorem Develops.layered (h : Develops allowed m m') (hm : m.dict.Layered) : m'.dict.Layered := by
  induction h with
  | refl => exact hm
  | bench b _ ih => exact ih
  | compile line _ ih => exact ih.extendsUnnamed (compile_extendsUnnamed _ line)
  | bind _ he ih => exact ih.register he.check

/-- **Names stay tokens.** -/
theorem Develops.named (h : Develops allowed m m') (hm : m.dict.Named m.limits.nameLen) :
    m'.dict.Named m'.limits.nameLen := by
  induction h with
  | refl => exact hm
  | bench b _ ih => exact ih
  | @compile m₁ line _ ih =>
    intro r name hr
    rw [(compile_extendsUnnamed m₁ line).nameOf?] at hr
    rw [limits_compile]
    exact ih r name hr
  | @bind m₁ e _ he ih =>
    intro r name hr
    obtain ⟨e', hget, hname⟩ := Option.bind_eq_some_iff.1 hr
    rcases Dict.get?_register hget with hget | rfl
    · exact ih r name (Option.bind_eq_some_iff.2 ⟨e', hget, hname⟩)
    · exact .inr (he.isName hname)

/-! ## The invariant -/

/-- What is true of the ledger of a machine. -/
structure LedgerInvariant (m : Machine) : Prop where
  /-- Compounds refer to older entries. -/
  below : ∀ r w, m.dict.get? r = some (.compound w) → ∀ q ∈ w.body, q < r
  /-- No compound reaches itself. -/
  acyclic : ∀ r, ¬ Relation.TransGen m.dict.Calls r r
  /-- Branches in compounds land on them.  Words in memory are far shorter than the bound, which only
  keeps sums that are clamped off their ends. -/
  lands : ∀ (r q : Ref) (w : Word) (p : Nat) (e : Entry) (offset : Cell),
    m.dict.get? r = some (.compound w) → w.body.size < 2 ^ 63 - 1 → w.body[p]? = some q →
    m.dict.get? q = some e → e.offset? = some offset →
      0 ≤ (p : Int) + offset.toInt + 1 ∧ (p : Int) + offset.toInt + 1 ≤ w.body.size
  /-- Names are tokens. -/
  named : ∀ r name, m.dict.nameOf? r = some name → r ≠ nop → IsToken m.limits.nameLen name
  /-- Reference zero is the NOP of the boot. -/
  nop : Threaded.nop = 0 ∧ m.dict.get? Threaded.nop = some (.primitive "NOP" .nop)

/-- The boot has nothing but its NOP. -/
theorem get?_boot {limits : Limits} {r : Ref} {e : Entry} (h : (boot limits).dict.get? r = some e) :
    r = nop ∧ e = .primitive "NOP" .nop := by
  have hlt : r < 1 := Dict.lt_size_of_get? h
  obtain rfl : r = nop := Nat.lt_one_iff.1 hlt
  exact ⟨rfl, (Option.some.inj h).symm⟩

/-- What has come of the boot has the invariant. -/
theorem Develops.ledgerInvariant {limits : Limits}
    (h : Develops (fun _ => True) (boot limits) m) : LedgerInvariant m := by
  have hlayered : m.dict.Layered := by
    apply h.layered
    rintro r q ⟨w, hr, _⟩
    exact nomatch (get?_boot hr).2
  have hnamed : m.dict.Named m.limits.nameLen := by
    apply h.named
    intro r name hr
    obtain ⟨e, hget, _⟩ := Option.bind_eq_some_iff.1 hr
    exact .inl (get?_boot hget).1
  have hsound : m.dict.Sound fun _ => True := by
    apply h.sound
    refine ⟨rfl, ?_, fun _ _ _ _ => trivial⟩
    intro r w hr
    exact nomatch (get?_boot hr).2
  exact
    { below := fun r w hr q hq => hlayered r q ⟨w, hr, hq⟩
      acyclic := hlayered.acyclic
      lands := fun _ _ _ _ _ _ hr hw hq he ho => hsound.lands hr hw hq he ho
      named := fun r name hr hne => .of_isName ((hnamed r name hr).resolve_left hne)
      nop := ⟨rfl, hsound.nop⟩ }

/-- **The ledger of every reachable machine**, and of the machine at every point of every run of a
command, within which services may define and evaluate. -/
theorem ledger_invariant {allowed : Command → Prop} (h : Reachable allowed m) :
    LedgerInvariant m ∧
      ∀ c t t', m.thread? c = some t → t.Leads t' → LedgerInvariant t'.machine := by
  obtain ⟨limits, hdev⟩ := h.exists_develops
  refine ⟨hdev.ledgerInvariant, ?_⟩
  intro c t t' ht hleads
  exact ((hdev.trans (develops_of_thread? ht)).trans hleads.develops).ledgerInvariant

/-- A name that is bound again is below what calls it. -/
theorem ledger_invariant_redefined :
    ∃ m, Reachable (fun _ => True) m ∧ m.dict.lookup "INC" = some 19 ∧
      m.dict.get? 19 = some (.compound { name := "INC", body := #[18, 18] }) ∧
      (∀ q ∈ #[18, 18], q < 19) ∧ LedgerInvariant m := by
  have hreach : Reachable (fun _ => True)
      (((boot {}).load.2.define "INC" "1 ADD").2.define "INC" "INC INC").2 :=
    .obey 0 (.obey 0 (.load trivial {}) (c := .define "INC" "1 ADD") trivial rfl)
      (c := .define "INC" "INC INC") trivial rfl
  have hledger := (ledger_invariant hreach).1
  have hget : (((boot {}).load.2.define "INC" "1 ADD").2.define "INC" "INC INC").2.dict.get? 19 =
      some (.compound { name := "INC", body := #[18, 18] }) := by decide
  exact ⟨_, hreach, by decide, hget, hledger.below 19 _ hget, hledger⟩

end Machine

end Threaded
