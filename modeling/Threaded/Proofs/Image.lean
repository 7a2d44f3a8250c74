import Threaded.Assembly
import Threaded.Proofs.Growth

/-!
# The image of a line

What the assembler makes of a line, said without its stack of open branches and without its
patching of entries.  Every symbol has a slot, and the reference in it and the entry that it
registers, if it registers one, are read off the symbols themselves: the offset of an IF or ELSE
is the distance to the ELSE or END that closes it (`closer`).

* `slotRefs d n symbols` are the references in the slots, fresh ones counted from `n` on;
* `freshEntries d symbols` are the entries registered, in order;
* `faultFrom d before symbols` is the error of the first symbol that cannot be assembled.

`addAll_image` is the main statement: the assembler stops at exactly that fault, and when there
is none it arrives at this image.  It is carried by `Tracks`, which relates the slots on the stack
of open branches to the entries in them: these are branches of this line, no two of them the same.
`Yields` is the part of the image that is left to come; it is built up from the end of the line,
one symbol at a time.
-/

namespace Threaded

namespace Symbol

/-! ## What a line is made into -/

/-- How many symbols come before the one that closes a branch, when `depth` branches have been
opened behind it. -/
def closer : Nat → List Symbol → Option Nat
  | _, [] => none
  | depth, .ifMark :: rest => (closer (depth + 1) rest).map (· + 1)
  | 0, .elseMark :: _ => some 0
  | 0, .endMark :: _ => some 0
  | depth + 1, .elseMark :: rest => (closer (depth + 1) rest).map (· + 1)
  | depth + 1, .endMark :: rest => (closer depth rest).map (· + 1)
  | depth, .branch _ :: rest => (closer depth rest).map (· + 1)
  | depth, .zbranch _ :: rest => (closer depth rest).map (· + 1)
  | depth, .word _ :: rest => (closer depth rest).map (· + 1)

/-- The offset of a branch that is closed behind `n` symbols, zero if it is not. -/
def arm : Option Nat → Cell
  | none => 0
  | some n => Cell.ofCount (n + 1)

/-- The entry that a symbol registers, with `rest` behind it. -/
def fresh? (d : Dict) (rest : List Symbol) : Symbol → Option Entry
  | .branch offset => some (.branch offset)
  | .zbranch offset => some (.zbranch offset)
  | .ifMark => some (.zbranch (arm (closer 0 rest)))
  | .elseMark => some (.branch (arm (closer 0 rest)))
  | .endMark => none
  | .word name =>
    match d.lookup name with
    | some _ => none
    | none => (Text.Decimal.literal? name).map .literal

/-- The reference in the slot of a symbol, if the next fresh one is `next`. -/
def ref (d : Dict) (next : Ref) : Symbol → Ref
  | .endMark => nop
  | .word name => (d.lookup name).getD next
  | _ => next

/-- The entries that symbols register, in order. -/
def freshEntries (d : Dict) : List Symbol → List Entry
  | [] => []
  | s :: rest => (s.fresh? d rest).toList ++ freshEntries d rest

/-- The references in the slots of symbols, if the next fresh one is `next`. -/
def slotRefs (d : Dict) (next : Ref) : List Symbol → List Ref
  | [] => []
  | s :: rest => s.ref d next :: slotRefs d (next + (s.fresh? d rest).toList.length) rest

/-- What is wrong with a symbol behind the symbols `before`: a word that is neither known nor a
number, or an ELSE or END when as many branches have been ended as opened. -/
def fault? (d : Dict) (before : List Symbol) : Symbol → Option Error
  | .word name =>
    if d.lookup name = none ∧ Text.Decimal.literal? name = none then
      some (.unresolvedSymbol before.length name)
    else none
  | .elseMark | .endMark =>
    if before.count .ifMark = before.count .endMark then
      some (.unmatchedElseOrEnd before.length)
    else none
  | .branch _ | .zbranch _ | .ifMark => none

/-- What is wrong with the first symbol at fault, behind the symbols `before`. -/
def faultFrom (d : Dict) (before : List Symbol) : List Symbol → Option Error
  | [] => none
  | s :: rest => (s.fault? d before).or (faultFrom d (before ++ [s]) rest)

end Symbol

/-! ## Assemblies in progress -/

/-- A branch whose target is not known yet: the slot it stands in and its entry. -/
structure OpenBranch where
  slot : Nat
  ref : Ref

namespace Assembly

/-- `os` are the open branches of an assembly that started from the dictionary `d`. -/
structure Tracks (d : Dict) (os : List OpenBranch) (a : Assembly) : Prop where
  flow : a.flow.items = os.map OpenBranch.slot
  code : ∀ o ∈ os, a.code[o.slot]? = some o.ref
  new : ∀ o ∈ os, d.size ≤ o.ref
  branch : ∀ o ∈ os, ∃ e, a.dict.get? o.ref = some e ∧ e.offset?.isSome
  nodup : (os.map OpenBranch.ref).Nodup
  grows : d.ExtendsUnnamed a.dict

namespace Tracks

variable {d : Dict} {o : OpenBranch} {os : List OpenBranch} {a : Assembly}

/-- Nothing is open at the start. -/
theorem start (d : Dict) (tokens : Nat) : Tracks d [] (start d tokens) where
  flow := rfl
  code _ h := absurd h List.not_mem_nil
  new _ h := absurd h List.not_mem_nil
  branch _ h := absurd h List.not_mem_nil
  nodup := List.nodup_nil
  grows := .refl d

/-- The entry of an open branch lies inside the ledger. -/
theorem ref_lt (h : Tracks d os a) (ho : o ∈ os) : o.ref < a.dict.size := by
  obtain ⟨e, he, _⟩ := h.branch o ho
  exact Dict.lt_size_of_get? he

/-- The next fresh reference belongs to no open branch. -/
theorem size_notMem (h : Tracks d os a) : a.dict.size ∉ os.map OpenBranch.ref := by
  intro hmem
  obtain ⟨o, ho, heq⟩ := List.mem_map.1 hmem
  exact Nat.ne_of_lt (h.ref_lt ho) heq

/-- Filling a slot leaves the slots before it alone. -/
theorem code_push (h : Tracks d os a) (r : Ref) (ho : o ∈ os) :
    (a.code.push r)[o.slot]? = some o.ref := by
  have hlt : o.slot < a.code.size := (Array.getElem?_eq_some_iff.1 (h.code o ho)).1
  rw [Array.getElem?_push, if_neg (by omega), h.code o ho]

/-- A registration leaves the open branches alone. -/
theorem branch_register (h : Tracks d os a) (e : Entry) (ho : o ∈ os) :
    ∃ e', (a.dict.register e).get? o.ref = some e' ∧ e'.offset?.isSome := by
  rw [Dict.get?_register_of_lt (h.ref_lt ho)]
  exact h.branch o ho

/-- A reference that is placed opens nothing. -/
theorem place (h : Tracks d os a) (r : Ref) : Tracks d os (a.place r) where
  flow := h.flow
  code _ ho := h.code_push r ho
  new := h.new
  branch := h.branch
  nodup := h.nodup
  grows := h.grows

/-- An entry without a name that is emitted opens nothing. -/
theorem emit (h : Tracks d os a) {e : Entry} (he : e.name? = none) : Tracks d os (a.emit e) where
  flow := h.flow
  code _ ho := h.code_push _ ho
  new := h.new
  branch _ ho := h.branch_register e ho
  nodup := h.nodup
  grows := h.grows.register he

/-- **The stack of open branches has room** whenever there is a symbol to come, and a branch that
is left open goes on top of it. -/
theorem emitOpen (h : Tracks d os a) {e : Entry} (he : e.offset?.isSome)
    (hroom : 0 < a.flow.room) :
    ∃ b, a.emitOpen e = .ok b ∧ Tracks d (⟨a.code.size, a.dict.size⟩ :: os) b ∧
      b.dict = a.dict.register e ∧ b.code = a.code.push a.dict.size ∧
      a.flow.room = b.flow.room + 1 := by
  have hname : e.name? = none := ((Entry.offset?_isSome_iff e).1 he).1
  unfold Assembly.emitOpen
  split
  · next hpush =>
    have := (Stack.push_eq_error_iff.1 hpush).1
    omega
  · next flow hpush =>
    obtain ⟨hitems, hfree⟩ := Stack.push_eq_ok_iff.1 hpush
    refine ⟨_, rfl, ?_, rfl, rfl, hfree⟩
    refine ⟨?_, ?_, ?_, ?_, ?_, h.grows.register hname⟩
    · rw [hitems, h.flow, List.map_cons]
    · intro o ho
      rcases List.mem_cons.1 ho with rfl | ho
      · simp
      · exact h.code_push _ ho
    · intro o ho
      rcases List.mem_cons.1 ho with rfl | ho
      · exact h.grows.toExtends.size_le
      · exact h.new o ho
    · intro o ho
      rcases List.mem_cons.1 ho with rfl | ho
      · exact ⟨e, Dict.get?_register_self _ _, he⟩
      · exact h.branch_register e ho
    · rw [List.map_cons, List.nodup_cons]
      exact ⟨h.size_notMem, h.nodup⟩

/-- Nothing can be closed when no branch is open. -/
theorem close_nil (h : Tracks d [] a) : a.close = .error (.unmatchedElseOrEnd a.code.size) := by
  unfold Assembly.close
  split
  · rfl
  · next hpop =>
    have hitems := Stack.items_of_pop hpop
    rw [h.flow] at hitems
    simp at hitems

/-- **The slot of an open branch is filled, and with a branch**, so it can be sent where it is to
go. -/
theorem close_cons (h : Tracks d (o :: os) a) :
    ∃ b, a.close = .ok b ∧ Tracks d os b ∧
      b.dict = a.dict.setOffset o.ref (Jump.offsetTo o.slot a.code.size) ∧ b.code = a.code ∧
      b.flow.room = a.flow.room + 1 := by
  unfold Assembly.close
  split
  · next hpop =>
    have hflow := h.flow
    unfold Stack.pop at hpop
    rw [hflow] at hpop
    simp at hpop
  · next slot flow hpop =>
    obtain ⟨hitems, hfree⟩ := Stack.pop_eq_ok_iff.1 hpop
    rw [h.flow, List.map_cons, List.cons.injEq] at hitems
    obtain ⟨rfl, hrest⟩ := hitems
    have hcode : a.code[o.slot]? = some o.ref := h.code o List.mem_cons_self
    obtain ⟨hlt, href⟩ := Array.getElem?_eq_some_iff.1 hcode
    obtain ⟨e, he, hbranch⟩ := h.branch o List.mem_cons_self
    have hpatch : a.dict.patch o.ref (Jump.offsetTo o.slot a.code.size) =
        .ok (a.dict.setOffset o.ref (Jump.offsetTo o.slot a.code.size)) := by
      simp only [Dict.patch, Dict.entry, he, hbranch, if_true]
    have hnodup := List.nodup_cons.1 h.nodup
    simp only [href, hpatch, Except.map]
    refine ⟨_, rfl, ?_, rfl, rfl, hfree⟩
    refine ⟨hrest.symm, fun p hp => h.code p (List.mem_cons_of_mem _ hp),
      fun p hp => h.new p (List.mem_cons_of_mem _ hp), ?_, hnodup.2,
      h.grows.setOffset (h.new o List.mem_cons_self) _⟩
    intro p hp
    have hne : p.ref ≠ o.ref := fun heq => hnodup.1 (heq ▸ List.mem_map_of_mem hp)
    rw [Dict.get?_setOffset_of_ne hne]
    exact h.branch p (List.mem_cons_of_mem _ hp)

end Tracks

/-! ## What is to come

The rest of an assembly, from an assembly `a` with open branches `os` to its end `b`: the slots and
the entries it adds, and after how many slots it closes which of the open branches.  The four moves
of the assembler, seen from behind, each put their own share in front of it. -/

/-- The rest of an assembly: what it adds and what it closes. -/
structure Yields (os : List OpenBranch) (a : Assembly) (closer : Nat → Option Nat)
    (slots : List Ref) (entries : List Entry) (b : Assembly) : Prop where
  code : b.code.toList = a.code.toList ++ slots
  kept : ∀ r < a.dict.size, r ∉ os.map OpenBranch.ref → b.dict.get? r = a.dict.get? r
  closed : ∀ i o, os[i]? = some o →
    b.dict.get? o.ref =
      match closer i with
      | none => a.dict.get? o.ref
      | some n =>
        (a.dict.get? o.ref).map (·.withOffset (Jump.offsetTo o.slot (a.code.size + n)))
  fresh : ∀ i, b.dict.get? (a.dict.size + i) = entries[i]?

namespace Yields

variable {d : Dict} {o : OpenBranch} {os : List OpenBranch} {a b c : Assembly}
  {closer : Nat → Option Nat} {slots : List Ref} {entries : List Entry} {e : Entry}

/-- Nothing to come. -/
theorem refl (os : List OpenBranch) (a : Assembly) : Yields os a (fun _ => none) [] [] a where
  code := (List.append_nil _).symm
  kept _ _ _ := rfl
  closed _ _ _ := rfl
  fresh i := by
    rw [Dict.get?_eq_none_iff.2 (Nat.le_add_right _ _)]
    rfl

/-- Only the values of the closer matter. -/
theorem congr {closer' : Nat → Option Nat} (h : Yields os a closer slots entries b)
    (hcloser : ∀ i, closer i = closer' i) : Yields os a closer' slots entries b := by
  obtain rfl : closer = closer' := funext hcloser
  exact h

/-- The first of the new entries is `e`, and the others are those that come behind. -/
theorem fresh_cons (hsize : c.dict.size = a.dict.size + 1)
    (hfirst : b.dict.get? a.dict.size = some e)
    (h : ∀ i, b.dict.get? (c.dict.size + i) = entries[i]?) (i : Nat) :
    b.dict.get? (a.dict.size + i) = (e :: entries)[i]? := by
  cases i with
  | zero => exact hfirst
  | succ i =>
    have := h i
    rw [hsize, Nat.add_assoc, Nat.add_comm 1 i] at this
    exact this

/-- A reference in front moves the closers by one. -/
theorem place {r : Ref} (h : Yields os (a.place r) closer slots entries b) :
    Yields os a (fun i => (closer i).map (· + 1)) (r :: slots) entries b where
  code := by
    rw [h.code]
    simp [Assembly.place]
  kept := h.kept
  closed i o ho := by
    rw [h.closed i o ho]
    cases closer i with
    | none => rfl
    | some n => simp [Assembly.place, Nat.add_assoc, Nat.add_comm 1 n]
  fresh := h.fresh

/-- An entry that is emitted in front moves the closers by one. -/
theorem emit (ht : Tracks d os a) (h : Yields os (a.emit e) closer slots entries b) :
    Yields os a (fun i => (closer i).map (· + 1)) (a.dict.size :: slots) (e :: entries) b where
  code := by
    rw [h.code]
    simp [Assembly.emit, Assembly.place]
  kept r hr hmem := by
    have hr' : r < (a.emit e).dict.size := by
      simp only [Assembly.emit, Dict.size_register]
      omega
    rw [h.kept r hr' hmem]
    exact Dict.get?_register_of_lt hr
  closed i o ho := by
    have hold : (a.emit e).dict.get? o.ref = a.dict.get? o.ref :=
      Dict.get?_register_of_lt (ht.ref_lt (List.mem_of_getElem? ho))
    rw [h.closed i o ho, hold]
    cases closer i with
    | none => rfl
    | some n => simp [Assembly.emit, Assembly.place, Nat.add_assoc, Nat.add_comm 1 n]
  fresh := by
    have hsize : (a.emit e).dict.size = a.dict.size + 1 := Dict.size_register _ _
    refine fresh_cons hsize ?_ h.fresh
    rw [h.kept _ (by rw [hsize]; exact Nat.lt_succ_self _) ht.size_notMem]
    exact Dict.get?_register_self _ _

/-- A branch that is opened in front takes the first closer as its own. -/
theorem emitOpen (ht : Tracks d os a) (hdict : c.dict = a.dict.register e)
    (hcode : c.code = a.code.push a.dict.size) (he : e.withOffset 0 = e)
    (h : Yields (⟨a.code.size, a.dict.size⟩ :: os) c closer slots entries b) :
    Yields os a (fun i => (closer (i + 1)).map (· + 1)) (a.dict.size :: slots)
      (e.withOffset (Symbol.arm (closer 0)) :: entries) b where
  code := by
    rw [h.code, hcode]
    simp
  kept r hr hmem := by
    have hne : r ≠ a.dict.size := Nat.ne_of_lt hr
    rw [h.kept r (by rw [hdict, Dict.size_register]; omega) (by simpa [hne] using hmem), hdict]
    exact Dict.get?_register_of_lt hr
  closed i o ho := by
    have hold : c.dict.get? o.ref = a.dict.get? o.ref := by
      rw [hdict]
      exact Dict.get?_register_of_lt (ht.ref_lt (List.mem_of_getElem? ho))
    rw [h.closed (i + 1) o ho, hold]
    cases closer (i + 1) with
    | none => rfl
    | some n => simp [hcode, Nat.add_assoc, Nat.add_comm 1 n]
  fresh := by
    refine fresh_cons (by rw [hdict, Dict.size_register]) ?_ h.fresh
    have hnew : c.dict.get? a.dict.size = some e := by
      rw [hdict]
      exact Dict.get?_register_self _ _
    rw [h.closed 0 ⟨a.code.size, a.dict.size⟩ rfl, hnew]
    cases closer 0 with
    | none => simp [Symbol.arm, he]
    | some n => simp [Symbol.arm, hcode, Nat.add_assoc, Nat.add_comm 1 n, Jump.offsetTo_add]

/-- A closer in front closes the innermost branch. -/
theorem close (ht : Tracks d (o :: os) a)
    (hdict : c.dict = a.dict.setOffset o.ref (Jump.offsetTo o.slot a.code.size))
    (hcode : c.code = a.code) (h : Yields os c closer slots entries b) :
    Yields (o :: os) a (fun | 0 => some 0 | i + 1 => closer i) slots entries b where
  code := by rw [h.code, hcode]
  kept r hr hmem := by
    rw [List.map_cons, List.mem_cons, not_or] at hmem
    rw [h.kept r (by rw [hdict, Dict.size_setOffset]; exact hr) hmem.2, hdict]
    exact Dict.get?_setOffset_of_ne hmem.1
  closed i p hp := by
    have hnodup := List.nodup_cons.1 ht.nodup
    cases i with
    | zero =>
      obtain rfl : o = p := Option.some.inj hp
      have hlt : o.ref < c.dict.size := by
        rw [hdict, Dict.size_setOffset]
        exact ht.ref_lt List.mem_cons_self
      rw [h.kept o.ref hlt hnodup.1, hdict]
      exact Dict.get?_setOffset_self _ _ _
    | succ i =>
      have hmem : p ∈ os := List.mem_of_getElem? hp
      have hne : p.ref ≠ o.ref := fun heq => hnodup.1 (heq ▸ List.mem_map_of_mem hmem)
      have hold : c.dict.get? p.ref = a.dict.get? p.ref := by
        rw [hdict]
        exact Dict.get?_setOffset_of_ne hne
      rw [h.closed i p hp, hold, hcode]
  fresh i := by
    have := h.fresh i
    rwa [hdict, Dict.size_setOffset] at this

end Yields

/-! ## One symbol -/

/-- The symbols to come make of `a` what their image says. -/
def Completes (d : Dict) (os : List OpenBranch) (a : Assembly) (symbols : List Symbol)
    (b : Assembly) : Prop :=
  Yields os a (Symbol.closer · symbols) (Symbol.slotRefs d a.dict.size symbols)
    (Symbol.freshEntries d symbols) b

/-- `a` is what comes of the symbols `before`, and `os` are the branches they have left open. -/
structure Stands (d : Dict) (before : List Symbol) (os : List OpenBranch) (a : Assembly) :
    Prop where
  tracks : Tracks d os a
  size : a.code.size = before.length
  level : os.length + before.count .endMark = before.count .ifMark

variable {d : Dict} {before : List Symbol} {os : List OpenBranch} {a : Assembly} {s : Symbol}

/-- **A symbol at fault is refused**, with the error of its fault. -/
theorem add_of_fault {e : Error} (h : Stands d before os a) (hs : s.fault? d before = some e) :
    a.add s = .error e := by
  cases s with
  | branch | zbranch | ifMark => cases hs
  | elseMark | endMark =>
    simp only [Symbol.fault?] at hs
    split at hs
    · next hcount =>
      have hos : os = [] := by
        apply List.eq_nil_of_length_eq_zero
        have := h.level
        omega
      obtain rfl := Option.some.inj hs
      subst hos
      simp only [add, h.tracks.close_nil, h.size, Except.bind, Except.map]
    · simp at hs
  | word name =>
    simp only [Symbol.fault?] at hs
    split at hs
    · next hword =>
      obtain rfl := Option.some.inj hs
      simp only [add, resolve, h.tracks.grows.lookup_eq, hword.1, hword.2, h.size]
    · simp at hs

/-- A symbol behind others counts once more. -/
theorem count_snoc (before : List Symbol) (s m : Symbol) :
    (before ++ [s]).count m = before.count m + if s = m then 1 else 0 := by
  rw [List.count_append, List.count_singleton]
  simp only [beq_iff_eq]

/-- An ELSE or END without fault finds an open branch. -/
theorem Stands.exists_cons (h : Stands d before os a)
    (hcount : before.count .ifMark ≠ before.count .endMark) : ∃ o os', os = o :: os' := by
  have hlevel := h.level
  cases os with
  | nil =>
    rw [List.length_nil] at hlevel
    omega
  | cons o os' => exact ⟨o, os', rfl⟩

/-- **A symbol without fault is assembled**, and puts its share in front of the image of those to
come. -/
theorem add_of_fault_eq_none (h : Stands d before os a) (hs : s.fault? d before = none)
    (hroom : 0 < a.flow.room) :
    ∃ b os', a.add s = .ok b ∧ Stands d (before ++ [s]) os' b ∧
      a.flow.room ≤ b.flow.room + 1 ∧
      ∀ rest c, Completes d os' b rest c → Completes d os a (s :: rest) c := by
  have ht := h.tracks
  have hsize := h.size
  have hlevel := h.level
  cases s with
  | branch n =>
    refine ⟨a.emit (.branch n), os, rfl, ⟨ht.emit rfl, ?_, ?_⟩, Nat.le_succ _, ?_⟩
    · simp [emit, place, hsize]
    · simpa using hlevel
    · intro rest c hc
      simp only [Completes, emit, Dict.size_register] at hc
      exact hc.emit ht
  | zbranch n =>
    refine ⟨a.emit (.zbranch n), os, rfl, ⟨ht.emit rfl, ?_, ?_⟩, Nat.le_succ _, ?_⟩
    · simp [emit, place, hsize]
    · simpa using hlevel
    · intro rest c hc
      simp only [Completes, emit, Dict.size_register] at hc
      exact hc.emit ht
  | ifMark =>
    obtain ⟨b, hb, htb, hdict, hcode, hfree⟩ :=
      ht.emitOpen (e := .zbranch 0) rfl hroom
    refine ⟨b, _, hb, ⟨htb, ?_, ?_⟩, by omega, ?_⟩
    · simp [hcode, hsize]
    · rw [List.length_cons, count_snoc, count_snoc, if_neg (by decide), if_pos rfl]
      omega
    · intro rest c hc
      simp only [Completes, hdict, Dict.size_register] at hc
      exact hc.emitOpen ht hdict hcode rfl
  | elseMark =>
    have hcount : before.count .ifMark ≠ before.count .endMark := by
      simpa [Symbol.fault?] using hs
    obtain ⟨o, os, rfl⟩ := h.exists_cons hcount
    obtain ⟨b, hb, htb, hdict, hcode, hfree⟩ := ht.close_cons
    obtain ⟨c, hc, htc, hdict', hcode', hfree'⟩ :=
      htb.emitOpen (e := .branch 0) rfl (by omega)
    refine ⟨c, _, ?_, ⟨htc, ?_, ?_⟩, by omega, ?_⟩
    · simp only [add, hb]
      exact hc
    · simp [hcode', hcode, hsize]
    · rw [List.length_cons] at hlevel ⊢
      rw [count_snoc, count_snoc, if_neg (by decide), if_neg (by decide)]
      omega
    · intro rest f hf
      simp only [Completes, hdict', Dict.size_register] at hf
      have hyields := (hf.emitOpen htb hdict' hcode' rfl).close ht hdict hcode
      rw [hdict, Dict.size_setOffset] at hyields
      apply hyields.congr
      intro i
      cases i <;> rfl
  | endMark =>
    have hcount : before.count .ifMark ≠ before.count .endMark := by
      simpa [Symbol.fault?] using hs
    obtain ⟨o, os, rfl⟩ := h.exists_cons hcount
    obtain ⟨b, hb, htb, hdict, hcode, hfree⟩ := ht.close_cons
    refine ⟨b.place nop, os, ?_, ⟨htb.place nop, ?_, ?_⟩, ?_, ?_⟩
    · simp only [add, hb]
      rfl
    · simp [place, hcode, hsize]
    · rw [List.length_cons] at hlevel
      rw [count_snoc, count_snoc, if_pos rfl, if_neg (by decide)]
      omega
    · simp only [place]
      omega
    · intro rest f hf
      have hsame : (b.place nop).dict.size = a.dict.size := by simp [place, hdict]
      unfold Completes at hf
      rw [hsame] at hf
      refine ((Yields.place hf).close ht hdict hcode).congr ?_
      intro i
      cases i <;> rfl
  | word name =>
    have hlookup := ht.grows.lookup_eq name
    cases hd : d.lookup name with
    | some r =>
      refine ⟨a.place r, os, ?_, ⟨ht.place r, ?_, ?_⟩, Nat.le_succ _, ?_⟩
      · simp only [add, resolve, hlookup, hd]
      · simp [place, hsize]
      · simpa using hlevel
      · intro rest c hc
        have hyields := Yields.place hc
        simpa [Completes, Symbol.slotRefs, Symbol.freshEntries, Symbol.ref, Symbol.fresh?, hd,
          Symbol.closer, place] using hyields
    | none =>
      obtain ⟨n, hn⟩ : ∃ n, Text.Decimal.literal? name = some n := by
        cases hl : Text.Decimal.literal? name with
        | none => simp [Symbol.fault?, hd, hl] at hs
        | some n => exact ⟨n, rfl⟩
      refine ⟨a.emit (.literal n), os, ?_, ⟨ht.emit rfl, ?_, ?_⟩, Nat.le_succ _, ?_⟩
      · simp only [add, resolve, hlookup, hd, hn]
      · simp [emit, place, hsize]
      · simpa using hlevel
      · intro rest c hc
        simp only [Completes, emit, Dict.size_register] at hc
        simpa [Completes, Symbol.slotRefs, Symbol.freshEntries, Symbol.ref, Symbol.fresh?, hd,
          hn, Symbol.closer] using hc.emit ht

/-! ## A whole line -/

/-- **The image of a line.**  Symbols behind those of an assembly are assembled up to the first
fault; when there is none, the end is what their image says. -/
theorem addAll_image : (symbols : List Symbol) → (before : List Symbol) →
    (os : List OpenBranch) → (a : Assembly) → Stands d before os a →
    symbols.length ≤ a.flow.room →
      match Symbol.faultFrom d before symbols with
      | none => ∃ b os', a.addAll symbols = (.ok (), b) ∧ Stands d (before ++ symbols) os' b ∧
          Completes d os a symbols b
      | some e => ∃ b, a.addAll symbols = (.error e, b) ∧ d.ExtendsUnnamed b.dict
  | [], before, os, a, h, _ => by
    refine ⟨a, os, rfl, by rwa [List.append_nil], ?_⟩
    exact (Yields.refl os a).congr fun i => by cases i <;> rfl
  | s :: rest, before, os, a, h, hroom => by
    rw [List.length_cons] at hroom
    rw [Symbol.faultFrom, addAll]
    cases hs : s.fault? d before with
    | some e =>
      rw [Option.some_or]
      exact ⟨a, by rw [add_of_fault h hs], h.tracks.grows⟩
    | none =>
      rw [Option.none_or]
      obtain ⟨b, os', hb, hstands, hfree, hfront⟩ := add_of_fault_eq_none h hs (by omega)
      have ih := addAll_image rest (before ++ [s]) os' b hstands (by omega)
      simp only [hb]
      cases hf : Symbol.faultFrom d (before ++ [s]) rest with
      | some e =>
        rw [hf] at ih
        exact ih
      | none =>
        rw [hf] at ih
        obtain ⟨c, os'', hc, hstands', hcomp⟩ := ih
        refine ⟨c, os'', hc, ?_, hfront rest c hcomp⟩
        rwa [List.append_assoc] at hstands'

end Assembly

end Threaded
