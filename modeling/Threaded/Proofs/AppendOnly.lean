import Mathlib.Data.List.Basic
import Threaded.Proofs.Conditional

/-!
# The dictionary is append-only

What is in the dictionary stays there, at its reference and as it is, the offsets of branches
included; and the names so far are an end of the names (`Dict.Precedes`).  This holds of every
command, whether it succeeds or fails, and of any two points of the run of one, and it holds while
a line is being assembled too, between one symbol and the next (`append_only`).

Only assembling writes to entries that are there already.  `Assembly.Fills` is what makes that
harmless: a line has its new references in one slot each, and its open branches stand in the slots
of an IF or an ELSE.  So the one entry that a symbol may write to is a branch that the same line has
registered for an IF or an ELSE, and never one that was written by hand (`Assembly.Writes`).
-/

namespace Threaded

/-! ## Dictionaries in order -/

namespace Dict

/-- The entries are a beginning of the entries, and the names an end of the names. -/
structure Precedes (d d' : Dict) : Prop where
  entries : d.entries.toList <+: d'.entries.toList
  names : d.names <:+ d'.names

/-- The references that have a name lie inside the ledger. -/
def Indexed (d : Dict) : Prop :=
  ∀ r ∈ d.named, r < d.size

variable {d d' : Dict} {e : Entry}

/-- The entries of a dictionary are a beginning of those of its extension. -/
theorem Extends.entries_prefix (h : d.Extends d') :
    d.entries.toList <+: d'.entries.toList := by
  refine List.prefix_iff_getElem?.2 ?_
  intro r hr
  have hkept := h.get?_of_lt r hr
  rw [Array.getElem?_toList, ← List.getElem?_eq_getElem hr, Array.getElem?_toList]
  exact hkept

/-- What is kept keeps its name. -/
theorem Extends.nameOf?_eq (h : d.Extends d') {r : Ref} (hr : r < d.size) :
    d'.nameOf? r = d.nameOf? r := by
  unfold nameOf?
  rw [h.get?_of_lt r hr]

/-- **A dictionary that grows comes behind itself.** -/
theorem Extends.precedes (h : d.Extends d') (hd : d.Indexed) : d.Precedes d' := by
  refine ⟨h.entries_prefix, ?_⟩
  obtain ⟨newer, hnamed⟩ := h.named
  have hold : d.named.filterMap d'.nameOf? = d.names :=
    List.filterMap_congr fun r hr => h.nameOf?_eq (hd r hr)
  refine ⟨newer.filterMap d'.nameOf?, ?_⟩
  rw [← hold, ← List.filterMap_append, hnamed]
  rfl

/-- A dictionary precedes what entries without names make of it. -/
theorem ExtendsUnnamed.precedes (h : d.ExtendsUnnamed d') : d.Precedes d' :=
  ⟨h.toExtends.entries_prefix, by simp only [h.names_eq, List.suffix_refl]⟩

/-- Entries without names need no list of names. -/
theorem Indexed.extendsUnnamed (hd : d.Indexed) (h : d.ExtendsUnnamed d') : d'.Indexed := by
  intro r hr
  rw [h.named] at hr
  exact Nat.lt_of_lt_of_le (hd r hr) h.toExtends.size_le

/-- An entry that is registered is listed if it has a name. -/
theorem Indexed.register (hd : d.Indexed) (e : Entry) : (d.register e).Indexed := by
  intro r hr
  rw [size_register]
  unfold Dict.register at hr
  split at hr
  · rcases List.mem_cons.1 hr with rfl | hr
    · exact Nat.lt_succ_self _
    · exact Nat.lt_succ_of_lt (hd r hr)
  · exact Nat.lt_succ_of_lt (hd r hr)

end Dict

namespace Machine

variable {allowed : Primitive → Prop} {m m' : Machine}

/-- **Whatever happens to a machine, what has a name can be found in its ledger.** -/
theorem Develops.indexed (h : Develops allowed m m') (hm : m.dict.Indexed) : m'.dict.Indexed := by
  induction h with
  | refl => exact hm
  | bench b _ ih => exact ih
  | compile line _ ih => exact ih.extendsUnnamed (compile_extendsUnnamed _ line)
  | bind _ _ ih => exact ih.register _

/-- A dictionary precedes what it develops into. -/
theorem Develops.precedes (h : Develops allowed m m') (hm : m.dict.Indexed) :
    m.dict.Precedes m'.dict :=
  h.grows.dict.precedes hm

/-- The one name of a machine that boots is listed. -/
theorem indexed_boot (limits : Limits) : (boot limits).dict.Indexed := by
  intro r hr
  obtain rfl := List.mem_singleton.1 hr
  exact Nat.zero_lt_one

/-- The names are listed on every machine that can be reached. -/
theorem Reachable.indexed {allowed : Command → Prop} (h : Reachable allowed m) :
    m.dict.Indexed := by
  obtain ⟨limits, hdev⟩ := h.exists_develops
  exact hdev.indexed (indexed_boot limits)

end Machine

/-! ## Writing to an entry -/

/-- A patch that succeeds sets the offset. -/
theorem Dict.eq_of_patch {d d' : Dict} {r : Ref} {offset : Cell}
    (h : d.patch r offset = .ok d') : d' = d.setOffset r offset := by
  unfold patch at h
  split at h
  · simp at h
  · split at h
    · exact (Except.ok.inj h).symm
    · simp at h

namespace Assembly

variable {d : Dict} {before : List Symbol} {tokens : Nat} {a b : Assembly} {s : Symbol}
  {e : Entry} {r : Ref}

/-- What a branch that is left open does to an assembly. -/
theorem of_emitOpen (h : a.emitOpen e = .ok b) :
    b.dict = a.dict.register e ∧ b.code = a.code.push a.dict.size ∧
      b.flow.items = a.code.size :: a.flow.items := by
  unfold emitOpen at h
  split at h
  · simp at h
  · next flow hpush =>
    obtain rfl := Except.ok.inj h
    exact ⟨rfl, rfl, Stack.items_of_push hpush⟩

/-- What closing a branch does to an assembly: the entry in the innermost open slot is written
to. -/
theorem of_close (h : a.close = .ok b) :
    ∃ slot r, a.flow.items = slot :: b.flow.items ∧ a.code[slot]? = some r ∧
      b.dict = a.dict.setOffset r (Jump.offsetTo slot a.code.size) ∧ b.code = a.code := by
  unfold close at h
  split at h
  · simp at h
  · next slot flow hpop =>
    have hitems := Stack.items_of_pop hpop
    have hslot : slot < a.code.size := a.filled slot (by simp [hitems])
    cases hpatch : a.dict.patch a.code[slot] (Jump.offsetTo slot a.code.size) with
    | error e => simp [hpatch, Except.map] at h
    | ok d' =>
      simp only [hpatch, Except.map] at h
      obtain rfl := Except.ok.inj h
      exact ⟨slot, a.code[slot], hitems, Array.getElem?_eq_getElem hslot,
        Dict.eq_of_patch hpatch, rfl⟩

/-! ## New references have one slot -/

/-- The slots of an assembly that started from the dictionary `d` are filled for the symbols
`before`. -/
structure Fills (d : Dict) (before : List Symbol) (a : Assembly) : Prop where
  size : a.code.size = before.length
  below : ∀ r ∈ a.code, r < a.dict.size
  /-- A new reference has one slot. -/
  once : a.code.toList.Pairwise fun q r => d.size ≤ q → q ≠ r
  /-- An open branch is new and stands for an IF or an ELSE. -/
  marks : ∀ slot ∈ a.flow.items,
    (before[slot]? = some .ifMark ∨ before[slot]? = some .elseMark) ∧
      ∀ r, a.code[slot]? = some r → d.size ≤ r
  grows : d.ExtendsUnnamed a.dict

namespace Fills

/-- No slot is filled at the start. -/
theorem start (d : Dict) (tokens : Nat) : Fills d [] (Assembly.start d tokens) where
  size := rfl
  below _ hr := absurd hr (Array.not_mem_empty _)
  once := List.Pairwise.nil
  marks _ hslot := absurd hslot List.not_mem_nil
  grows := .refl d

/-- The slot of a new reference is told by the reference. -/
theorem slot_eq (h : Fills d before a) {i j : Nat} (hi : a.code[i]? = some r)
    (hj : a.code[j]? = some r) (hr : d.size ≤ r) : i = j := by
  have hne : ∀ i j : Nat, i < j → a.code[i]? = some r → a.code[j]? ≠ some r := by
    intro i j hij hi hj
    obtain ⟨hi', hi⟩ := Array.getElem?_eq_some_iff.1 hi
    obtain ⟨hj', hj⟩ := Array.getElem?_eq_some_iff.1 hj
    have hdistinct := List.pairwise_iff_getElem.1 h.once i j hi' hj' hij
    rw [Array.getElem_toList, Array.getElem_toList, hi, hj] at hdistinct
    exact hdistinct hr rfl
  rcases Nat.lt_trichotomy i j with hij | hij | hij
  · exact absurd hj (hne i j hij hi)
  · exact hij
  · exact absurd hi (hne j i hij hj)

/-- **The next slot is filled** with an old reference or with the next new one, and it may be left
open if it is that of an IF or an ELSE. -/
theorem push (h : Fills d before a) (hcode : b.code = a.code.push r)
    (hnew : d.size ≤ r → r = a.dict.size) (hr : r < b.dict.size)
    (hsize : a.dict.size ≤ b.dict.size) (hgrows : d.ExtendsUnnamed b.dict)
    (hflow : ∀ slot ∈ b.flow.items, slot ∈ a.flow.items ∨
      slot = a.code.size ∧ (s = .ifMark ∨ s = .elseMark) ∧ d.size ≤ r) :
    Fills d (before ++ [s]) b := by
  refine ⟨?_, ?_, ?_, ?_, hgrows⟩
  · simp [hcode, h.size]
  · intro q hq
    rw [hcode, Array.mem_push] at hq
    rcases hq with hq | rfl
    · exact Nat.lt_of_lt_of_le (h.below q hq) hsize
    · exact hr
  · rw [hcode, Array.toList_push]
    refine List.pairwise_append.2 ⟨h.once, List.pairwise_singleton _ _, ?_⟩
    intro q hq q' hq' hdq heq
    rw [List.mem_singleton] at hq'
    subst hq' heq
    exact Nat.ne_of_lt (h.below q (by simpa using hq)) (hnew hdq)
  -- an open slot is from before, and then filling the next one does not touch it, or is the next
  · intro slot hslot
    rcases hflow slot hslot with hold | ⟨rfl, hs, hdr⟩
    · have hlt : slot < a.code.size := a.filled slot hold
      rw [hcode, Array.getElem?_push_lt hlt, ← Array.getElem?_eq_getElem hlt,
        List.getElem?_append_left (by rw [← h.size]; exact hlt)]
      exact h.marks slot hold
    · rw [hcode, Array.getElem?_push_size, h.size, List.getElem?_concat_length]
      refine ⟨by simpa using hs, fun q hq => ?_⟩
      rwa [← Option.some.inj hq]

/-- A symbol that refers to an entry fills its slot with the reference. -/
theorem place (h : Fills d before a) (hr : r < d.size) : Fills d (before ++ [s]) (a.place r) :=
  h.push rfl (fun hle => absurd hr (Nat.not_lt_of_le hle))
    (Nat.lt_of_lt_of_le hr h.grows.toExtends.size_le) (Nat.le_refl _) h.grows fun _ => .inl

/-- A symbol that makes an entry fills its slot with the new one. -/
theorem emit (h : Fills d before a) (he : e.name? = none) : Fills d (before ++ [s]) (a.emit e) := by
  have hsize : a.dict.size < (a.emit e).dict.size := by
    rw [show (a.emit e).dict = a.dict.register e from rfl, Dict.size_register]
    exact Nat.lt_succ_self _
  exact h.push rfl (fun _ => rfl) hsize (Nat.le_of_lt hsize) (h.grows.register he) fun _ => .inl

/-- A symbol that opens a branch fills its slot with the new entry. -/
theorem emitOpen (h : Fills d before a) (he : e.name? = none) (hs : s = .ifMark ∨ s = .elseMark)
    (hb : a.emitOpen e = .ok b) : Fills d (before ++ [s]) b := by
  obtain ⟨hdict, hcode, hitems⟩ := of_emitOpen hb
  have hsize : a.dict.size < b.dict.size := by
    rw [hdict, Dict.size_register]
    exact Nat.lt_succ_self _
  refine h.push hcode (fun _ => rfl) hsize (Nat.le_of_lt hsize) ?_ ?_
  · rw [hdict]
    exact h.grows.register he
  · intro slot hslot
    rw [hitems] at hslot
    rcases List.mem_cons.1 hslot with rfl | hold
    · exact .inr ⟨rfl, hs, h.grows.toExtends.size_le⟩
    · exact .inl hold

end Fills

/-! ## What a symbol writes -/

/-- The entry at `r` may be written to: the line that started from the dictionary `d` has
registered it, and its one slot is that of an IF or an ELSE among the symbols `before`. -/
structure Patchable (d : Dict) (before : List Symbol) (a : Assembly) (r : Ref) : Prop where
  new : d.size ≤ r
  placed : ∃ i : Nat, a.code[i]? = some r
  marks : ∀ i : Nat, a.code[i]? = some r → before[i]? = some .ifMark ∨ before[i]? = some .elseMark

/-- What a symbol behind the symbols `before` may do to the dictionary: write to one such entry,
and then register an entry without a name. -/
def Writes (d : Dict) (before : List Symbol) (a b : Assembly) : Prop :=
  ∃ d₁, (d₁ = a.dict ∨
      ∃ r offset, Patchable d before a r ∧ d₁ = a.dict.setOffset r offset) ∧
    (b.dict = d₁ ∨ ∃ e, e.name? = none ∧ b.dict = d₁.register e)

/-- **Closing a branch** writes to an entry that may be written to. -/
theorem Fills.close (h : Fills d before a) (hb : a.close = .ok b) :
    Fills d before b ∧ ∃ r offset, Patchable d before a r ∧ b.dict = a.dict.setOffset r offset := by
  obtain ⟨slot, r, hitems, hr, hdict, hcode⟩ := of_close hb
  have htop : slot ∈ a.flow.items := by simp [hitems]
  obtain ⟨hmark, hnew⟩ := h.marks slot htop
  refine ⟨⟨?_, ?_, ?_, ?_, ?_⟩, r, _, ⟨hnew r hr, ⟨slot, hr⟩, ?_⟩, hdict⟩
  · rw [hcode, h.size]
  · rw [hcode, hdict, Dict.size_setOffset]
    exact h.below
  · rw [hcode]
    exact h.once
  · rw [hcode]
    exact fun s hs => h.marks s (by simp [hitems, hs])
  · rw [hdict]
    exact h.grows.setOffset (hnew r hr) _
  -- the entry has no other slot, so what is known of the open slot is known of all its slots
  · intro i hi
    rwa [h.slot_eq hi hr (hnew r hr)]

/-- **What one symbol writes**, and how it fills its slot. -/
theorem Fills.add (h : Fills d before a) (hnop : nop < d.size)
    (hb : a.add s = .ok b) : Fills d (before ++ [s]) b ∧ Writes d before a b := by
  cases s with
  | branch n | zbranch n =>
    obtain rfl := Except.ok.inj hb
    exact ⟨h.emit rfl, a.dict, .inl rfl, .inr ⟨_, rfl, rfl⟩⟩
  | ifMark =>
    exact ⟨h.emitOpen rfl (.inl rfl) hb, a.dict, .inl rfl, .inr ⟨_, rfl, (of_emitOpen hb).1⟩⟩
  | elseMark =>
    simp only [add] at hb
    cases hclose : a.close with
    | error e => simp [hclose, Except.bind] at hb
    | ok c =>
      simp only [hclose, Except.bind] at hb
      obtain ⟨hc, hpatch⟩ := h.close hclose
      exact ⟨hc.emitOpen rfl (.inr rfl) hb, c.dict, .inr hpatch, .inr ⟨_, rfl, (of_emitOpen hb).1⟩⟩
  | endMark =>
    simp only [add] at hb
    cases hclose : a.close with
    | error e => simp [hclose, Except.map] at hb
    | ok c =>
      simp only [hclose, Except.map] at hb
      obtain rfl := Except.ok.inj hb
      obtain ⟨hc, hpatch⟩ := h.close hclose
      exact ⟨hc.place hnop, c.dict, .inr hpatch, .inl rfl⟩
  | word name =>
    simp only [add, resolve] at hb
    split at hb
    · next r hlookup =>
      obtain rfl := Except.ok.inj hb
      rw [h.grows.lookup_eq] at hlookup
      exact ⟨h.place (Dict.lt_size_of_lookup hlookup), a.dict, .inl rfl, .inl rfl⟩
    · split at hb
      · obtain rfl := Except.ok.inj hb
        exact ⟨h.emit rfl, a.dict, .inl rfl, .inr ⟨_, rfl, rfl⟩⟩
      · simp at hb

/-- **The slots of a whole line are filled for its symbols.** -/
theorem Fills.addAll (hnop : nop < d.size) :
    (symbols before : List Symbol) → (a : Assembly) → Fills d before a →
      a.addAll symbols = (.ok (), b) → Fills d (before ++ symbols) b
  | [], before, a, h, hb => by
    obtain rfl : a = b := (Prod.mk.inj hb).2
    rwa [List.append_nil]
  | s :: rest, before, a, h, hb => by
    rw [Assembly.addAll] at hb
    split at hb
    · next c hc =>
      rw [List.append_cons]
      exact addAll hnop rest _ c (h.add hnop hc).1 hb
    · simp at hb

/-- **A branch written by hand stays as it was written**, whatever comes behind it. -/
theorem handwritten (hbefore : before.length ≤ tokens)
    (ha : (Assembly.start d tokens).addAll before = (.ok (), a)) {i : Nat}
    (hr : a.code[i]? = some r) :
    (∀ n, before[i]? = some (.branch n) → a.dict.get? r = some (.branch n)) ∧
      ∀ n, before[i]? = some (.zbranch n) → a.dict.get? r = some (.zbranch n) := by
  have himage := addAll_image before [] [] _ (.start d tokens) hbefore
  cases hf : Symbol.faultFrom d [] before with
  | some e =>
    rw [hf] at himage
    obtain ⟨b, hb, _⟩ := himage
    simp [ha] at hb
  | none =>
    rw [hf] at himage
    obtain ⟨b, os, hb, _, hyields⟩ := himage
    obtain rfl : a = b := (Prod.mk.inj (ha.symm.trans hb)).2
    have hlaid : Laid d a.dict a.code 0 before :=
      Laid.of_image before d.size 0 hyields.code (Nat.zero_le _) hyields.fresh
    -- the entry of a branch written by hand does not depend on what comes behind it
    have hslot : ∀ s e, before[i]? = some s → (∀ rest, s.fresh? d rest = some e) →
        a.dict.get? r = some e := by
      intro s e hs hfresh
      obtain ⟨hi, rfl⟩ := List.getElem?_eq_some_iff.1 hs
      have hsplit : before = before.take i ++ before[i] :: before.drop (i + 1) := by simp
      rw [hsplit] at hlaid
      obtain ⟨⟨q, hq, _, hget⟩, _⟩ := hlaid.behind _ _ _
      rw [List.length_take_of_le (Nat.le_of_lt hi), Nat.zero_add, hr] at hq
      obtain rfl := Option.some.inj hq
      exact hget e (hfresh _)
    exact ⟨fun n hn => hslot _ _ hn fun _ => rfl, fun n hn => hslot _ _ hn fun _ => rfl⟩

end Assembly

/-! ## Append-only -/

/-- While the symbols of a line are assembled, the dictionary `d` of its start is kept, and so are
the branches that are written by hand; each further symbol writes at most to a branch that the line
itself has made for an IF or ELSE. -/
structure Assembling (d : Dict) (before : List Symbol) (a : Assembly) : Prop where
  kept : d.Precedes a.dict
  handwritten : ∀ (i : Nat) (r : Ref), a.code[i]? = some r →
    (∀ n, before[i]? = some (.branch n) → a.dict.get? r = some (.branch n)) ∧
      ∀ n, before[i]? = some (.zbranch n) → a.dict.get? r = some (.zbranch n)
  writes : ∀ s b, a.add s = .ok b → Assembly.Writes d before a b ∧ d.Precedes b.dict

/-- **Assembling keeps what there is**, from one symbol to the next. -/
theorem assembling_of_addAll {d : Dict} (hnop : nop < d.size) {before rest : List Symbol}
    {a : Assembly}
    (ha : (Assembly.start d (before ++ rest).length).addAll before = (.ok (), a)) :
    Assembling d before a := by
  have hfills : Assembly.Fills d before a := .addAll hnop before [] _ (.start d _) ha
  have hroom : before.length ≤ (before ++ rest).length := by
    rw [List.length_append]
    exact Nat.le_add_right _ _
  refine ⟨hfills.grows.precedes, fun i r => Assembly.handwritten hroom ha, ?_⟩
  intro s b hb
  obtain ⟨hfills', hwrites⟩ := hfills.add hnop hb
  exact ⟨hwrites, hfills'.grows.precedes⟩

namespace Machine

/-- Between the machines nothing has happened but what can happen to a machine. -/
abbrev LeadsTo (m m' : Machine) : Prop :=
  Develops (fun _ => True) m m'

/-- What is kept when the machine `m` is given the command `c`. -/
structure AppendOnly (m : Machine) (c : Command) : Prop where
  /-- However the command ends, the dictionary comes behind that from before. -/
  command : ∀ fuel r m', m.obey fuel c = some (r, m') → m.dict.Precedes m'.dict
  /-- What the command runs, it runs in its thread. -/
  thread : ∀ t, m.thread? c = some t →
    ∀ fuel, (m.obey fuel c).map Prod.snd = (t.finish fuel).map Prod.snd
  /-- At every point of this run the dictionary comes behind that from before. -/
  point : ∀ t t₁, m.thread? c = some t → t.Leads t₁ →
    m.LeadsTo t₁.machine ∧ m.dict.Precedes t₁.machine.dict
  /-- Of two points, the dictionary of the later comes behind that of the earlier. -/
  later : ∀ t t₁ t₂, m.thread? c = some t → t.Leads t₁ → t₁.Leads t₂ →
    t₁.machine.dict.Precedes t₂.machine.dict
  /-- And that of the end behind both. -/
  ending : ∀ t t₁ r m', m.thread? c = some t → t.Leads t₁ → t.EndsIn (r, m') →
    t₁.machine.dict.Precedes m'.dict
  /-- Whenever a line is assembled, by a host or in the middle of a run. -/
  assembling : ∀ m₁ before rest a, m.LeadsTo m₁ →
    (Assembly.start m₁.dict (before ++ rest).length).addAll before = (.ok (), a) →
      Assembling m₁.dict before a

variable {allowed : Command → Prop} {m : Machine}

/-- **The dictionary is append-only**, for every command and at every point. -/
theorem append_only (h : Reachable allowed m) (c : Command) : AppendOnly m c := by
  obtain ⟨limits, hdev⟩ := h.exists_develops
  have hindexed : ∀ {m₁}, m.LeadsTo m₁ → m₁.dict.Indexed := fun hm₁ =>
    (hdev.trans hm₁).indexed (indexed_boot limits)
  have hpoint : ∀ {t t₁}, m.thread? c = some t → t.Leads t₁ → m.LeadsTo t₁.machine :=
    fun ht hleads => (develops_of_thread? ht).trans hleads.develops
  refine ⟨?_, ?_, ?_, ?_, ?_, ?_⟩
  · intro fuel r m' hobey
    exact (obey_grows hobey).dict.precedes (hindexed .refl)
  · exact fun t ht fuel => obey_eq_finish ht
  · intro t t₁ ht hleads
    exact ⟨hpoint ht hleads, (hpoint ht hleads).precedes (hindexed .refl)⟩
  · intro t t₁ t₂ ht h₁ h₂
    exact (h₂.develops : t₁.machine.LeadsTo t₂.machine).precedes (hindexed (hpoint ht h₁))
  · intro t t₁ r m' ht h₁ hend
    exact (h₁.endsIn_iff.1 hend).grows.dict.precedes (hindexed (hpoint ht h₁))
  · intro m₁ before rest a hm₁ ha
    have hnop : m₁.dict.get? nop = some (.primitive "NOP" .nop) :=
      (hdev.trans hm₁).grows.dict.get? rfl
    exact assembling_of_addAll (Dict.lt_size_of_get? hnop) ha

/-- A line that fails behind a branch written by hand leaves all three of its branches behind, and
nothing else has changed. -/
theorem append_only_failed :
    ∃ r m', (boot {}).obey 9 (.eval "BRANCH7 IF ELSE nope") = some (r, m') ∧
      m'.dict.entries = #[.primitive "NOP" .nop, .branch 7, .zbranch 1, .branch 0] ∧
      (boot {}).dict.Precedes m'.dict := by
  have hkept := append_only (.boot {} : Reachable (fun _ => True) _)
    (.eval "BRANCH7 IF ELSE nope")
  exact ⟨_, _, rfl, by decide, hkept.command 9 _ _ rfl⟩

end Machine

end Threaded
