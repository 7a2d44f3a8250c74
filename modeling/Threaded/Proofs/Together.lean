import Threaded.Proofs.Lockstep
import Threaded.Session

/-!
# Machines that are alike

Machines are alike if they have the same limits and the same bench, and dictionaries that are alike
along some renaming.  Then they do alike whatever they are asked to do, as long as it names no
reference: a line is assembled into words that stand for one another (`compile_together`), names are
bound to entries that are alike (`define_together`), and runs go side by side (`run_together`).
What is answered is the same, and the machines that are left are alike along a larger renaming: the
entries that are new stand for one another (`obey_together`).

That assembling comes to the same is seen on the image of the line, which depends on the dictionary
for the references of its names alone.
-/

namespace Threaded

/-! ## The image of a line -/

namespace Entry

/-- An entry without a name holds no reference. -/
theorem Alike.of_nameless {R : Renaming} {e : Entry} (h : e.name? = none) : e.Alike R e := by
  cases e with
  | primitive | compound => cases h
  | literal value => exact .literal value
  | branch offset => exact .branch offset
  | zbranch offset => exact .zbranch offset

end Entry

namespace Symbol

variable {R R' : Renaming} {d d' : Dict}

/-- The same is wrong with a symbol. -/
theorem fault?_eq (h : Dict.Alike R d d') (before : List Symbol) (s : Symbol) :
    s.fault? d before = s.fault? d' before := by
  cases s with
  | word name => simp only [fault?, h.lookup_eq_none_iff name]
  | _ => rfl

/-- Dictionaries that are alike find one first fault. -/
theorem faultFrom_eq_of_alike (h : Dict.Alike R d d') : (symbols before : List Symbol) →
    faultFrom d before symbols = faultFrom d' before symbols
  | [], _ => rfl
  | s :: rest, before => by
    rw [faultFrom, faultFrom, fault?_eq h, faultFrom_eq_of_alike h rest]

/-- The same is registered for a symbol. -/
theorem fresh?_eq (h : Dict.Alike R d d') (rest : List Symbol) (s : Symbol) :
    s.fresh? d rest = s.fresh? d' rest := by
  cases s with
  | word name =>
    have hrel := h.lookup name
    simp only [fresh?]
    generalize d.lookup name = found, d'.lookup name = found' at hrel ⊢
    cases hrel <;> rfl
  | _ => rfl

/-- Dictionaries that are alike add the same entries. -/
theorem freshEntries_eq (h : Dict.Alike R d d') : (symbols : List Symbol) →
    freshEntries d symbols = freshEntries d' symbols
  | [] => rfl
  | s :: rest => by rw [freshEntries, freshEntries, fresh?_eq h, freshEntries_eq h rest]

/-- What is registered for a symbol has no name. -/
theorem name?_of_fresh? {rest : List Symbol} {s : Symbol} {e : Entry}
    (h : s.fresh? d rest = some e) : e.name? = none := by
  cases s with
  | endMark => cases h
  | word name =>
    simp only [fresh?] at h
    split at h
    · simp at h
    · obtain ⟨n, _, rfl⟩ := Option.map_eq_some_iff.1 h
      rfl
  | _ =>
    obtain rfl := Option.some.inj h
    rfl

/-- The entries that a line adds have no names. -/
theorem name?_of_mem_freshEntries {e : Entry} : (symbols : List Symbol) →
    e ∈ freshEntries d symbols → e.name? = none
  | s :: rest, h => by
    rw [freshEntries, List.mem_append, Option.mem_toList] at h
    rcases h with h | h
    · exact name?_of_fresh? h
    · exact name?_of_mem_freshEntries rest h

/-- **The slots stand for one another** if the entries that are registered do. -/
theorem forall₂_slotRefs (h : Dict.Alike R d d') (hR : R.Within R') :
    (symbols before : List Symbol) → (next next' : Ref) → faultFrom d before symbols = none →
      (∀ i < (freshEntries d symbols).length, R' (next + i) (next' + i)) →
        List.Forall₂ R' (slotRefs d next symbols) (slotRefs d' next' symbols)
  | [], _, _, _, _, _ => .nil
  | s :: rest, before, next, next', hf, hnew => by
    rw [faultFrom, Option.or_eq_none_iff] at hf
    rw [freshEntries, List.length_append] at hnew
    have hnext : 0 < (s.fresh? d rest).toList.length → R' next next' := fun hpos =>
      hnew 0 (Nat.lt_of_lt_of_le hpos (Nat.le_add_right _ _))
    rw [slotRefs, slotRefs, ← fresh?_eq h]
    refine .cons ?_ (forall₂_slotRefs h hR rest (before ++ [s]) _ _ hf.2 ?_)
    · cases s with
      | endMark => exact hR _ _ h.nop
      | word name =>
        have hrel := h.lookup name
        have hfault := hf.1
        simp only [fault?, fresh?, ref] at hfault hnext ⊢
        generalize d.lookup name = found, d'.lookup name = found' at hrel hfault hnext ⊢
        cases hrel with
        | some hr => exact hR _ _ hr
        | none =>
          -- a word without fault that is not known is a number, so it registers an entry
          apply hnext
          cases hl : Text.Decimal.literal? name with
          | none => simp [hl] at hfault
          | some n => exact Nat.zero_lt_one
      | _ => exact hnext Nat.zero_lt_one
    · intro i hi
      have hpair := hnew ((s.fresh? d rest).toList.length + i) (Nat.add_lt_add_left hi _)
      rwa [← Nat.add_assoc, ← Nat.add_assoc] at hpair

end Symbol

/-! ## Assembling -/

section Assembling

variable {R : Renaming} {d d' : Dict} {symbols : List Symbol} {a a' : Assembly}

/-- The dictionaries in which a line has registered its entries are alike. -/
theorem Dict.Alike.image (h : Dict.Alike R d d') (hd : d.ExtendsUnnamed a.dict)
    (hd' : d'.ExtendsUnnamed a'.dict)
    (hnew : ∀ i, a.dict.get? (d.size + i) = (Symbol.freshEntries d symbols)[i]?)
    (hnew' : ∀ i, a'.dict.get? (d'.size + i) = (Symbol.freshEntries d symbols)[i]?) :
    Dict.Alike (R.extend d.size d'.size (Symbol.freshEntries d symbols).length) a.dict a'.dict := by
  have hsame := h.extendsUnnamed hd hd'
  refine ⟨?_, hsame.named.imp (R.within_extend _ _ _), .inl hsame.nop⟩
  rintro r r' (hr | ⟨i, hi, rfl, rfl⟩)
  · obtain ⟨e, e', he, he', halike⟩ := hsame.entries r r' hr
    exact ⟨e, e', he, he', halike.mono (R.within_extend _ _ _)⟩
  · have he := List.getElem?_eq_getElem hi
    exact ⟨_, _, (hnew i).trans he, (hnew' i).trans he,
      .of_nameless (Symbol.name?_of_mem_freshEntries symbols (List.getElem_mem hi))⟩

/-- Lines that are assembled into slots that stand for one another are finished alike. -/
theorem Assembly.finish_together (h : a.dict.Matches R a'.dict)
    (hcode : List.Forall₂ R a.code.toList a'.code.toList)
    (hflow : a.flow.items.length = a'.flow.items.length) :
    Agree (Word.Alike R) a.finish a'.finish := by
  have hsize : a.code.size = a'.code.size := hcode.length_eq
  have hopen : a.flow.items.isEmpty = a'.flow.items.isEmpty := by
    rw [Bool.eq_iff_iff, List.isEmpty_iff_length_eq_zero, List.isEmpty_iff_length_eq_zero, hflow]
  unfold finish
  rw [hopen, hsize, h.check_eq hcode]
  split
  · cases Jump.check a'.dict a'.code with
    | ok => exact .ok ⟨rfl, hcode⟩
    | error e => exact .error e
  · exact .error _

/-- **A line is assembled alike**: into words that stand for one another, or with the same error,
and the dictionaries that are left are alike. -/
theorem assemble_together (h : Dict.Alike R d d') (symbols : List Symbol) :
    ∃ R', R.Within R' ∧ Dict.Alike R' (assemble d symbols).2 (assemble d' symbols).2 ∧
      Agree (Word.Alike R') (assemble d symbols).1 (assemble d' symbols).1 := by
  have himage := assemble_image d symbols
  have himage' := assemble_image d' symbols
  rw [← Symbol.faultFrom_eq_of_alike h] at himage'
  cases hf : Symbol.faultFrom d [] symbols with
  | some e =>
    rw [hf] at himage himage'
    obtain ⟨d₁, hd₁, hgrows⟩ := himage
    obtain ⟨d₁', hd₁', hgrows'⟩ := himage'
    rw [hd₁, hd₁']
    exact ⟨R, .refl R, h.extendsUnnamed hgrows hgrows', .error e⟩
  | none =>
    rw [hf] at himage himage'
    obtain ⟨a, os, ha, hstands, hslots, hnew⟩ := himage
    obtain ⟨a', os', ha', hstands', hslots', hnew'⟩ := himage'
    rw [← Symbol.freshEntries_eq h] at hnew'
    have halike := h.image hstands.tracks.grows hstands'.tracks.grows hnew hnew'
    have hcode : List.Forall₂ (R.extend d.size d'.size (Symbol.freshEntries d symbols).length)
        a.code.toList a'.code.toList := by
      rw [hslots, hslots']
      exact Symbol.forall₂_slotRefs h (R.within_extend _ _ _) symbols [] _ _ hf
        fun i hi => .inr ⟨i, hi, rfl, rfl⟩
    -- how many branches are left open can be counted in the symbols
    have hflow : a.flow.items.length = a'.flow.items.length := by
      have hlevel := hstands.level
      have hlevel' := hstands'.level
      rw [hstands.tracks.flow, hstands'.tracks.flow, List.length_map, List.length_map]
      omega
    rw [ha, ha']
    exact ⟨_, R.within_extend _ _ _, halike,
      Assembly.finish_together halike.entries hcode hflow⟩

end Assembling

/-! ## Machines -/

/-- What is related stays so under functions that keep it. -/
theorem rel_map {α β γ δ : Type} {rel : α → β → Prop} {rel' : γ → δ → Prop} {f : α → γ} {g : β → δ}
    {a : Option α} {b : Option β} (h : Option.Rel rel a b)
    (hf : ∀ a b, rel a b → rel' (f a) (g b)) : Option.Rel rel' (a.map f) (b.map g) := by
  cases h with
  | none => exact .none
  | some hab => exact .some (hf _ _ hab)

/-- A command that names no reference, and that binds primitives of the standard set at most. -/
def Command.Plain : Command → Prop
  | .run _ => False
  | c => c.Binds Primitive.Standard

namespace Machine

/-- Machines that differ in their references alone. -/
structure Alike (R : Renaming) (m m' : Machine) : Prop where
  limits : m.limits = m'.limits
  dict : Dict.Alike R m.dict m'.dict
  bench : m.bench = m'.bench

/-- Both fail with the same error, or both have values, which are related; and the machines that are
left are alike along a renaming that extends `R`. -/
inductive Together {α β : Type} (R : Renaming) (rel : Renaming → α → β → Prop) :
    Except Error α × Machine → Except Error β × Machine → Prop
  | ok {R' : Renaming} {m m' : Machine} {a : α} {b : β} (hR : R.Within R') (hm : Alike R' m m')
    (h : rel R' a b) : Together R rel (.ok a, m) (.ok b, m')
  | error {R' : Renaming} {m m' : Machine} (hR : R.Within R') (hm : Alike R' m m') (e : Error) :
    Together R rel (.error e, m) (.error e, m')

variable {R R' : Renaming} {m m' : Machine} {fuel : Nat}

namespace Together

variable {α β γ δ : Type} {rel : Renaming → α → β → Prop} {rel' : Renaming → γ → δ → Prop}
  {o : Except Error α × Machine} {o' : Except Error β × Machine}

/-- Results that agree on machines that are alike are together. -/
theorem of_agree {r : Except Error α} {r' : Except Error β} (hR : R.Within R')
    (hm : Alike R' m m') (h : Agree (rel R') r r') : Together R rel (r, m) (r', m') := by
  cases h with
  | ok hab => exact .ok hR hm hab
  | error e => exact .error hR hm e

/-- The values may be taken for others that are related. -/
theorem map {f : α → γ} {g : β → δ} (h : Together R rel o o')
    (hf : ∀ R' a b, rel R' a b → rel' R' (f a) (g b)) :
    Together R rel' (o.1.map f, o.2) (o'.1.map g, o'.2) := by
  cases h with
  | ok hR hm hab => exact .ok hR hm (hf _ _ _ hab)
  | error hR hm e => exact .error hR hm e

/-- What comes later may extend the renaming once more. -/
theorem of_within (hR : R.Within R') (h : Together R' rel o o') : Together R rel o o' := by
  cases h with
  | ok hR' hm hab => exact .ok (hR.trans hR') hm hab
  | error hR' hm e => exact .error (hR.trans hR') hm e

end Together

/-- **A line is compiled alike.** -/
theorem compile_together (h : Alike R m m') (line : String) :
    Together R (fun R' => Option.Rel (Word.Alike R')) (m.compile line) (m'.compile line) := by
  have htokens : tokenize m.limits.nameLen line = tokenize m'.limits.nameLen line := by
    rw [h.limits]
  unfold compile
  rw [htokens]
  cases tokenize m'.limits.nameLen line with
  | error e => exact .error (.refl R) h e
  | ok tokens =>
    cases tokens with
    | nil => exact .ok (.refl R) h .none
    | cons t tokens =>
      have hword := assemble_together h.dict ((t :: tokens).map Token.symbol)
      dsimp only
      generalize assemble m.dict _ = o, assemble m'.dict _ = o' at hword ⊢
      obtain ⟨r, d⟩ := o
      obtain ⟨r', d'⟩ := o'
      obtain ⟨R', hR, hdict, hagree⟩ := hword
      have hm : Alike R' { m with dict := d } { m' with dict := d' } :=
        ⟨h.limits, hdict, h.bench⟩
      cases hagree with
      | ok hw => exact .ok hR hm (.some hw)
      | error e => exact .error hR hm e

/-- **An entry is bound alike.** -/
theorem register_together (h : Alike R m m') {e e' : Entry} (he : e.Alike R e') :
    Together R (fun _ _ _ => True) (.ok m.dict.size, m.register e)
      (.ok m'.dict.size, m'.register e') :=
  .ok (R.within_extend _ _ _) ⟨h.limits, h.dict.register he, h.bench⟩ trivial

/-- The same name is bound on machines that are alike. -/
theorem defword_together (h : Alike R m m') (name : String) {action : Primitive}
    (ha : action.Standard) :
    Together R (fun _ _ _ => True) (m.defword name action) (m'.defword name action) := by
  unfold defword
  rw [h.limits]
  split
  · exact register_together h (.primitive name ha)
  · exact .error (.refl R) h _

/-- The standard set is loaded alike. -/
theorem defwords_together : (words : List (String × Op)) → {R : Renaming} → {m m' : Machine} →
    Alike R m m' → Together R (fun _ => Eq) (m.defwords words) (m'.defwords words)
  | [], R, _, _, h => .ok (.refl R) h rfl
  | (name, op) :: rest, R, m, m', h => by
    have hstandard : (Primitive.op op).Standard := trivial
    have hfirst := defword_together h name hstandard
    unfold defwords
    generalize m.defword name (.op op) = o, m'.defword name (.op op) = o' at hfirst ⊢
    cases hfirst with
    | ok hR hm => exact (defwords_together rest hm).of_within hR
    | error hR hm e => exact .error hR hm e

/-- **A line is bound to a name alike.** -/
theorem define_together (h : Alike R m m') (name source : String) :
    Together R (fun _ _ _ => True) (m.define name source) (m'.define name source) := by
  have hcompile := compile_together h source
  unfold define
  rw [h.limits]
  split
  · generalize m.compile source = o, m'.compile source = o' at hcompile ⊢
    cases hcompile with
    | error hR hm e => exact .error hR hm e
    | @ok R' _ _ w w' hR hm hw =>
      have hbody : List.Forall₂ R' ((w.map Word.body).getD #[]).toList
          ((w'.map Word.body).getD #[]).toList := by
        cases hw with
        | none => exact .nil
        | some hw => exact hw.body
      have hword : Word.Alike R' ⟨name, (w.map Word.body).getD #[]⟩
          ⟨name, (w'.map Word.body).getD #[]⟩ := ⟨rfl, hbody⟩
      exact (register_together hm (.compound hword)).of_within hR
  · exact .error (.refl R) h _

/-- An action on the bench comes to the same. -/
theorem perform_together {α : Type} (h : Alike R m m') (x : Bench.Action α) :
    Together R (fun _ => Eq) (m.perform x) (m'.perform x) := by
  unfold perform
  rw [h.bench]
  exact .of_agree (.refl R) ⟨h.limits, h.dict, rfl⟩ (.refl _)

/-! ## Runs -/

/-- Benches side by side behind the same text are the same. -/
theorem eq_of_beside {b b' : Bench} {c : String} (h : Bench.Beside c c b b') : b = b' := by
  obtain ⟨hstack, text, hc, hc'⟩ := h
  cases b
  cases b'
  simp only [Bench.mk.injEq]
  exact ⟨hstack, hc.trans hc'.symm⟩

/-- **Words that stand for one another run alike.** -/
theorem run_together (h : Alike R m m') {w w' : Word} (hw : w.Alike R w') (fuel : Nat) :
    Option.Rel (Together R fun _ => Eq) (m.run fuel w) (m'.run fuel w') := by
  have hbench : Bench.Beside "" "" m.bench m'.bench :=
    ⟨congrArg Bench.stack h.bench, m.bench.console, String.empty_append.symm,
      by rw [h.bench, String.empty_append]⟩
  have hrun := run_beside h.dict.entries hw.body ⟨rfl, rfl, h.limits, hbench⟩ fuel
  generalize m.run fuel w = o, m'.run fuel w' = o' at hrun ⊢
  cases hrun with
  | none => exact .none
  | @some o o' hend =>
    obtain ⟨r, m₁⟩ := o
    obtain ⟨r', m₁'⟩ := o'
    obtain ⟨hresult, hleft, hright, hlimits, hbench⟩ := hend
    obtain rfl : r = r' := hresult
    have hdict : Dict.Alike R m₁.dict m₁'.dict := by
      rw [hleft, hright]
      exact h.dict
    exact .some (.of_agree (.refl R) ⟨hlimits, hdict, eq_of_beside hbench⟩ (.refl r))

/-- What a word comes to behind a line that is compiled. -/
theorem run_within (hR : R.Within R') (h : Alike R' m m') {w w' : Word}
    (hw : w.Alike R' w') (fuel : Nat) :
    Option.Rel (Together R fun _ => Eq) (m.run fuel w) (m'.run fuel w') := by
  have hrun := run_together h hw fuel
  generalize m.run fuel w = o, m'.run fuel w' = o' at hrun ⊢
  cases hrun with
  | none => exact .none
  | some h => exact .some (h.of_within hR)

/-- **A line is evaluated alike.** -/
theorem eval_together (h : Alike R m m') (line : String) (fuel : Nat) :
    Option.Rel (Together R fun _ => Eq) (m.eval fuel line) (m'.eval fuel line) := by
  have hcompile := compile_together h line
  unfold eval
  generalize m.compile line = o, m'.compile line = o' at hcompile ⊢
  cases hcompile with
  | error hR hm e => exact .some (.error hR hm e)
  | ok hR hm hword =>
    cases hword with
    | none => exact .some (.ok hR hm rfl)
    | some hw => exact run_within hR hm hw fuel

/-- **A line is executed alike.** -/
theorem exec_together (h : Alike R m m') (line : String) (fuel : Nat) :
    Option.Rel (Together R fun _ => Eq) (m.exec fuel line) (m'.exec fuel line) := by
  have hcompile := compile_together h line
  unfold exec
  generalize m.compile line = o, m'.compile line = o' at hcompile ⊢
  cases hcompile with
  | error hR hm e => exact .some (.of_agree hR hm (.refl e.folded))
  | ok hR hm hword =>
    cases hword with
    | none => exact .some (.ok hR hm rfl)
    | some hw =>
      exact rel_map (run_within hR hm hw fuel) fun o o' ho => ho.map fun _ _ _ _ => rfl

/-- The same bytes are executed on machines that are alike. -/
theorem execBytes_together (h : Alike R m m') (bytes : List UInt8) (fuel : Nat) :
    Option.Rel (Together R fun _ => Eq) (m.execBytes fuel bytes) (m'.execBytes fuel bytes) := by
  unfold execBytes
  rw [h.limits]
  cases Line.ofBytes m'.limits.nameLen bytes with
  | ok line => exact exec_together h line fuel
  | error e => exact .some (.of_agree (.refl R) h (.refl e.folded))

/-! ## Commands -/

/-- Replies that are shown alike. -/
def Shown (_ : Renaming) (r r' : Reply) : Prop :=
  r.answer = r'.answer

/-- **A command that names no reference** comes to the same on machines that are alike. -/
theorem obey_together (h : Alike R m m') {c : Command} (hc : c.Plain) (fuel : Nat) :
    Option.Rel (Together R Shown) (m.obey fuel c) (m'.obey fuel c) := by
  cases c with
  | load => exact .some ((defwords_together standardWords h).map fun _ _ _ _ => rfl)
  | define name source => exact .some ((define_together h name source).map fun _ _ _ _ => rfl)
  | defword name action =>
    have ha : action.Standard := hc action List.mem_cons_self
    exact .some ((defword_together h name ha).map fun _ _ _ _ => rfl)
  | compile line =>
    refine .some ((compile_together h line).map fun R' w w' hw => ?_)
    cases hw with
    | none => rfl
    | some hw => exact congrArg (fun n => Answer.word (some n)) hw.body.length_eq
  | run word => exact hc.elim
  | eval line =>
    exact rel_map (eval_together h line fuel) fun o o' ho => ho.map fun _ _ _ _ => rfl
  | exec line =>
    exact rel_map (exec_together h line fuel) fun o o' ho =>
      ho.map fun _ _ _ heq => by rw [heq]; rfl
  | execBytes bytes =>
    exact rel_map (execBytes_together h bytes fuel) fun o o' ho =>
      ho.map fun _ _ _ heq => by rw [heq]; rfl
  | push value => exact .some ((perform_together h _).map fun _ _ _ _ => rfl)
  | pop => exact .some ((perform_together h _).map fun _ _ _ heq => by rw [heq]; rfl)
  | clear => exact .some ((perform_together h _).map fun _ _ _ _ => rfl)
  | print text => exact .some ((perform_together h _).map fun _ _ _ _ => rfl)
  | clearConsole =>
    refine .some (.ok (.refl R) ⟨h.limits, h.dict, ?_⟩ rfl)
    exact congrArg (fun b : Bench => { b with console := "" }) h.bench

/-- **A query is answered the same.** -/
theorem Alike.ask_eq (h : Alike R m m') (q : Query) : m.ask q = m'.ask q := by
  cases q with
  | item index => simp only [ask, h.bench]
  | names => simp only [ask, h.dict.names_eq]
  | knows name =>
    have hrel := h.dict.lookup name
    simp only [ask]
    generalize m.dict.lookup name = found, m'.dict.lookup name = found' at hrel ⊢
    cases hrel <;> rfl
  | see name => simp only [ask, h.dict.see_eq]
  | console => simp only [ask, console, h.bench]

/-- **The same is seen** of both. -/
theorem Alike.view_eq (h : Alike R m m') (answer : Except Error Answer) :
    m.view answer = m'.view answer := by
  simp only [view, h.bench, h.dict.names_eq]

end Machine

end Threaded
