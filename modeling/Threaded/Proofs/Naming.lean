import Threaded.Proofs.Calling
import Threaded.Proofs.Ledger
import Threaded.Proofs.Lexing
import Threaded.Proofs.Overflow
import Threaded.Proofs.Shelf
import Threaded.Proofs.Slots
import Threaded.Proofs.Spelling

/-!
# What a name can be, and what it then means

A name is refused if it cannot be a token: if it is empty, holds a separator or is too long.  No
line has such a text among its tokens, and every other text is the only token of some line, namely
of itself (`isName_iff_occurs`).

A name that is accepted is bound to one reference (`Machine.Names`).  The dictionary changes by this
name alone: every other lookup finds what it found before.  And as long as the name is not bound
again, it is known in every line: the slots that hold the reference are those of the tokens with
this text, whether it is the text of a number or not.  For what a line adds has no name, the NOP of
an END is older, and what is registered for a token is newer.
-/

namespace Threaded

/-! ## Which names are accepted -/

section Accepted

variable {nameLen : Nat} {name : String}

/-- The text is a token of some line. -/
def Occurs (nameLen : Nat) (name : String) : Prop :=
  ∃ line tokens, tokenize nameLen line = .ok tokens ∧ ∃ t ∈ tokens, t.text = name

/-- The text cannot be a token. -/
def Unusable (nameLen : Nat) (name : String) : Prop :=
  name = "" ∨ ' ' ∈ name.toList ∨ '\x00' ∈ name.toList ∨ nameLen < name.utf8ByteSize

/-- A token is neither empty nor cut by a separator, and it fits. -/
theorem isName_of_mem_tokenize {line : String} {tokens : List Token} {t : Token}
    (h : tokenize nameLen line = .ok tokens) (ht : t ∈ tokens) : isName nameLen t.text = true := by
  obtain ⟨htexts, hfit⟩ := exists_tokenize_iff.1 ⟨tokens, h, rfl⟩
  have hmem : t.text ∈ tokens.map Token.text := List.mem_map_of_mem ht
  obtain ⟨hne, hsep⟩ := unseparated_of_mem_lineTexts (htexts ▸ hmem)
  exact isName_iff.2 ⟨hne, hsep, hfit _ hmem⟩

/-- **The accepted names are the tokens** of all lines. -/
theorem isName_iff_occurs : isName nameLen name = true ↔ Occurs nameLen name := by
  constructor
  · intro h
    exact ⟨name, _, tokenize_of_isName h, _, List.mem_singleton_self _, rfl⟩
  · rintro ⟨line, tokens, htokens, t, ht, rfl⟩
    exact isName_of_mem_tokenize htokens ht

/-- The refused names. -/
theorem unusable_iff : Unusable nameLen name ↔ ¬ isName nameLen name = true := by
  have hsep : (∀ c ∈ name.toList, isSeparator c = false) ↔
      ' ' ∉ name.toList ∧ '\x00' ∉ name.toList := by
    simp only [isSeparator, Bool.or_eq_false_iff, decide_eq_false_iff_not]
    exact ⟨fun h => ⟨fun hc => (h _ hc).1 rfl, fun hc => (h _ hc).2 rfl⟩,
      fun h c hc => ⟨fun heq => h.1 (heq ▸ hc), fun heq => h.2 (heq ▸ hc)⟩⟩
  rw [isName_iff, hsep, Unusable]
  simp only [ne_eq, not_and_or, not_not, Nat.not_le]
  tauto

end Accepted

/-! ## What a registration does to the names -/

namespace Dict.Chronicled

variable {d : Dict} {e : Entry} {name : String}

/-- The name of a new entry comes in front of the others. -/
theorem names_register (h : d.Chronicled) (e : Entry) :
    (d.register e).names = e.name?.toList ++ d.names := by
  rw [(h.register e).names_eq, h.names_eq]
  simp only [Dict.register, Array.toList_push, List.reverse_append, List.reverse_singleton,
    List.singleton_append, List.filterMap_cons]
  cases e.name? <;> rfl

/-- A new entry is found under its own name alone. -/
theorem lookup_register_of_ne (h : d.Chronicled) (hname : e.name? ≠ some name) :
    (d.register e).lookup name = d.lookup name := by
  have hlt : ∀ {d' : Dict} {q : Ref}, d'.nameOf? q = some name → q < d'.size :=
    fun hq => lt_size_of_nameOf? (hq ▸ Option.some_ne_none _)
  have hsame : ∀ q, (d.register e).nameOf? q = some name ↔ d.nameOf? q = some name := by
    intro q
    rcases Nat.lt_trichotomy q d.size with hq | rfl | hq
    · rw [nameOf?_register_of_lt hq]
    · rw [nameOf?_register_self]
      refine ⟨fun hnew => absurd hnew hname, fun hold => ?_⟩
      exact absurd (hlt hold) (Nat.lt_irrefl _)
    · refine ⟨fun hnew => absurd (hlt hnew) ?_, fun hold => absurd (hlt hold) ?_⟩
      · rw [size_register]
        exact Nat.not_lt_of_le hq
      · exact Nat.not_lt_of_gt hq
  refine Option.ext fun r => ?_
  rw [(h.register e).lookup_eq_some_iff, h.lookup_eq_some_iff]
  simp only [hsame]

end Dict.Chronicled

/-! ## What a name means in a line -/

/-- **A token leads to the entry of a name** exactly if it is that name. -/
theorem Symbol.ref_eq_iff {d : Dict} (hd : d.Chronicled) {name text : String} {r next : Ref}
    (hword : ofText name = .word name) (hname : d.lookup name = some r) (hnop : r ≠ nop)
    (hnext : r < next) : (ofText text).ref d next = r ↔ text = name := by
  constructor
  · intro h
    cases hs : ofText text with
    | word text' =>
      obtain rfl := eq_of_ofText_eq_word hs
      rw [hs, ref] at h
      cases hl : d.lookup text with
      | none =>
        rw [hl, Option.getD_none] at h
        exact absurd h (Nat.ne_of_gt hnext)
      | some q =>
        rw [hl, Option.getD_some] at h
        subst h
        have htext := (hd.newest_of_lookup hl).1
        rw [(hd.newest_of_lookup hname).1] at htext
        exact (Option.some.inj htext).symm
    | endMark =>
      rw [hs] at h
      exact absurd h.symm hnop
    | ifMark | elseMark | branch | zbranch =>
      rw [hs] at h
      exact absurd h (Nat.ne_of_gt hnext)
  · rintro rfl
    rw [hword, ref, hname, Option.getD_some]

namespace Machine

variable {m m' m₁ m₂ : Machine} {name : String} {r : Ref}

/-- The slots of the line that hold the reference are those of its tokens with this text. -/
def Recognises (m : Machine) (name : String) (r : Ref) (line : String) (w : Word) : Prop :=
  ∃ tokens, tokenize m.limits.nameLen line = .ok tokens ∧ w.body.size = tokens.length ∧
    ∀ t : Nat, w.body[t]? = some r ↔ tokens[t]?.map Token.text = some name

/-- **A name that is known is the token of its slots**, in any line that compiles. -/
theorem recognises_of_compile (hd : m.dict.Chronicled) (hword : Symbol.ofText name = .word name)
    (hname : m.dict.lookup name = some r) (hnop : r ≠ nop) {line : String} {w : Word}
    (hc : m.compile line = (.ok (some w), m')) : m.Recognises name r line w := by
  have himage := imaged_of_compile hc
  refine ⟨_, by rw [tokenize_eq, firstTooLong?_of_compile hc], ?_, fun t => ?_⟩
  · rw [himage.size_body, length_lineSymbols, List.length_map]
  · have hsymbols : lineSymbols line =
        (lineRuns line).map fun run => Symbol.ofText (String.ofList run.items) := by
      rw [lineSymbols, lineTexts, List.map_map]
      rfl
    cases hrun : (lineRuns line)[t]? with
    | none =>
      have hout : w.body[t]? = none := by
        rw [Array.getElem?_eq_none_iff, himage.size_body, length_lineSymbols]
        exact List.getElem?_eq_none_iff.1 hrun
      simp [hout, hrun]
    | some run =>
      have hs : (lineSymbols line)[t]? = some (Symbol.ofText (String.ofList run.items)) := by
        rw [hsymbols, List.getElem?_map, hrun, Option.map_some]
      have hlt : r < m.dict.size + Symbol.newBefore m.dict (lineSymbols line) t :=
        Nat.lt_of_lt_of_le (Dict.lt_size_of_lookup hname) (Nat.le_add_right _ _)
      rw [himage.getElem?_body hs, List.getElem?_map, hrun, Option.some_inj,
        Symbol.ref_eq_iff hd hword hname hnop hlt, Option.map_some, Option.map_some,
        Option.some_inj]

/-- The name has been bound to the reference, and nothing else has. -/
structure Names (m m' : Machine) (name : String) (r : Ref) : Prop where
  /-- The reference is the last of the ledger. -/
  last : m'.dict.size = r + 1
  lookup_self : m'.dict.lookup name = some r
  lookup_other : ∀ other, other ≠ name → m'.dict.lookup other = m.dict.lookup other
  names : m'.dict.names = name :: m.dict.names
  /-- If the name is a word of the language, it is known in all lines to come, be they compiled by
  a host or in the middle of a run, until it is bound again. -/
  slots : Symbol.ofText name = .word name → ∀ m₁, m'.LeadsTo m₁ →
    (∀ q, r < q → m₁.dict.nameOf? q ≠ some name) → ∀ line w m₂,
      m₁.compile line = (.ok (some w), m₂) → m₁.Recognises name r line w

/-- **An entry that is registered under a name** is what the name leads to, in a dictionary to which
at most entries without names have been added before. -/
theorem names_register (hm : m.dict.Chronicled) (hgrows : m.dict.ExtendsUnnamed m₁.dict)
    (hpos : 0 < m.dict.size) {e : Entry} (he : e.name? = some name) :
    m.Names (m₁.register e) name m₁.dict.size := by
  have hm₁ : m₁.dict.Chronicled := hm.extendsUnnamed hgrows
  have hnew : (m₁.register e).dict.nameOf? m₁.dict.size = some name :=
    (Dict.nameOf?_register_self _ _).trans he
  have hnop : m₁.dict.size ≠ nop := by
    have := hgrows.toExtends.size_le
    show m₁.dict.size ≠ 0
    omega
  refine ⟨Dict.size_register _ _, Dict.lookup_register_self he, ?_, ?_, ?_⟩
  · intro other hother
    have hne : e.name? ≠ some other := fun h => hother (Option.some.inj (h.symm.trans he))
    exact (hm₁.lookup_register_of_ne hne).trans (hgrows.lookup_eq other)
  · show (m₁.dict.register e).names = _
    rw [hm₁.names_register, he, hgrows.names_eq]
    rfl
  · intro hword m₂ hm₂ hlast line w m₃ hc
    have hchronicled : m₂.dict.Chronicled := hm₂.chronicled (hm₁.register e)
    refine recognises_of_compile hchronicled hword ?_ hnop hc
    refine hchronicled.lookup_eq_some_iff.2 ⟨?_, fun q hq => Nat.le_of_not_lt fun hlt => ?_⟩
    · rw [hm₂.grows.dict.nameOf?_eq (Nat.lt_of_lt_of_eq (Nat.lt_succ_self _)
        (Dict.size_register _ _).symm)]
      exact hnew
    · exact hlast q hlt hq

/-! ## The theorem -/

/-- What comes of binding a name, if something else fails with the errors `fails`. -/
structure Naming (m : Machine) (name : String) (fails : Error → Prop)
    (o : Except Error Ref × Machine) : Prop where
  /-- The name is refused if it is empty, holds a separator or is too long, -/
  refused_iff : o.1 = .error (.invalidName name) ↔ Unusable m.limits.nameLen name
  /-- that is, if it is a token of no line, -/
  refused_iff_not_occurs : o.1 = .error (.invalidName name) ↔ ¬ Occurs m.limits.nameLen name
  /-- and this changes nothing. -/
  refused : o.1 = .error (.invalidName name) → o.2 = m
  /-- If the name is not refused, it is bound unless something else fails. -/
  failed_iff : ∀ e, e ≠ .invalidName name →
    (o.1 = .error e ↔ Occurs m.limits.nameLen name ∧ fails e)
  /-- No failure changes what the names are and what they lead to. -/
  failed : ∀ e, o.1 = .error e →
    (∀ other, o.2.dict.lookup other = m.dict.lookup other) ∧ o.2.dict.names = m.dict.names
  bound : ∀ r, o.1 = .ok r → m.Names o.2 name r

namespace Naming

variable {fails : Error → Prop} {e : Error}

/-- A name that is refused changes nothing. -/
theorem of_refused (h : ¬ isName m.limits.nameLen name = true) :
    m.Naming name fails (.error (.invalidName name), m) where
  refused_iff := ⟨fun _ => unusable_iff.2 h, fun _ => rfl⟩
  refused_iff_not_occurs := ⟨fun _ => mt isName_iff_occurs.2 h, fun _ => rfl⟩
  refused _ := rfl
  failed_iff _ he :=
    ⟨fun heq => absurd (Except.error.inj heq).symm he,
      fun hboth => absurd (isName_iff_occurs.2 hboth.1) h⟩
  failed _ _ := ⟨fun _ => rfl, rfl⟩
  bound _ h := nomatch h

/-- A name that is accepted and not bound leaves the names as they are. -/
theorem of_failed (h : isName m.limits.nameLen name = true) (he : e ≠ .invalidName name)
    (hfails : ∀ e', fails e' ↔ e' = e) (hgrows : m.dict.ExtendsUnnamed m₁.dict) :
    m.Naming name fails (.error e, m₁) where
  refused_iff :=
    ⟨fun heq => absurd (Except.error.inj heq) he, fun hbad => absurd h (unusable_iff.1 hbad)⟩
  refused_iff_not_occurs :=
    ⟨fun heq => absurd (Except.error.inj heq) he,
      fun hnone => absurd (isName_iff_occurs.1 h) hnone⟩
  refused heq := absurd (Except.error.inj heq) he
  failed_iff e' _ := by
    rw [hfails, Except.error.injEq, eq_comm]
    exact (and_iff_right (isName_iff_occurs.1 h)).symm
  failed _ _ := ⟨hgrows.lookup_eq, hgrows.names_eq⟩
  bound _ h := nomatch h

/-- A name that is bound is the newest. -/
theorem of_bound (h : isName m.limits.nameLen name = true) (hfails : ∀ e, ¬ fails e)
    (hnames : m.Names m' name r) : m.Naming name fails (.ok r, m') where
  refused_iff := ⟨nofun, fun hbad => absurd h (unusable_iff.1 hbad)⟩
  refused_iff_not_occurs := ⟨nofun, fun hnone => absurd (isName_iff_occurs.1 h) hnone⟩
  refused := nofun
  failed_iff e _ := ⟨nofun, fun hboth => absurd hboth.2 (hfails e)⟩
  failed := nofun
  bound _ hr := Except.ok.inj hr ▸ hnames

end Naming

variable {allowed : Command → Prop}

/-- **Naming is exact.**  A name is refused exactly if it can be a token of no line, and then
nothing has changed.  A definition whose line does not compile changes no name.  In every other case
the name is bound to the last reference of the ledger and to nothing else: all other names lead to
what they led to.  A name that is a word of the language is then known in all lines to come, until
it is bound again, and its tokens are the only ones that are assembled into the reference, be the
name a number or not. -/
theorem naming_exact (h : Reachable allowed m) (name source : String) (action : Primitive) :
    m.Naming name (fun e => (m.compile source).1 = .error e) (m.define name source) ∧
      m.Naming name (fun _ => False) (m.defword name action) := by
  have hpos : 0 < m.dict.size := Dict.lt_size_of_get? h.get?_nop
  unfold define defword
  by_cases hname : isName m.limits.nameLen name = true
  · rw [if_pos hname, if_pos hname]
    refine ⟨?_, .of_bound hname (fun _ => id)
      (names_register h.chronicled (.refl _) hpos rfl)⟩
    have hgrows := m.compile_extendsUnnamed source
    rcases hc : m.compile source with ⟨e | w, m₁⟩
    · rw [hc] at hgrows
      refine .of_failed hname ?_ (fun e' => ?_) hgrows
      · rintro rfl
        exact ofLine_of_compile hc
      · exact ⟨fun heq => (Except.error.inj heq).symm, fun heq => heq ▸ rfl⟩
    · rw [hc] at hgrows
      exact .of_bound hname nofun (names_register h.chronicled hgrows hpos rfl)
  · rw [if_neg hname, if_neg hname]
    exact ⟨.of_refused hname, .of_refused hname⟩

/-- The number seven as a name, also of the lines that the machine compiles later; a name that is
refused; and a definition that fails. -/
theorem naming_exact_number :
    ∃ m m' m₁ w, Reachable (fun _ => True) m ∧ m.define "7" "1" = (.ok 18, m') ∧
      m.Names m' "7" 18 ∧ m'.compile "7 8 07 7" = (.ok (some w), m₁) ∧
      m'.Recognises "7" 18 "7 8 07 7" w ∧ w.body = #[18, 19, 20, 18] ∧
      (m.define "a b" "1").1 = .error (.invalidName "a b") ∧ (m.define "a b" "1").2 = m ∧
      (m.define "f" "nope").1 = .error (.unresolvedSymbol 0 "nope") ∧
      (m.define "f" "nope").2.dict.names = m.dict.names := by
  have hreach : Reachable (fun _ => True) (boot {}).load.2 := .load trivial {}
  have hdefined := (naming_exact hreach "7" "1" .nop).1
  have hrefused := (naming_exact hreach "a b" "1" .nop).1
  have hfailed := (naming_exact hreach "f" "nope" .nop).1
  have hnames : (boot {}).load.2.Names _ "7" 18 := hdefined.bound 18 rfl
  have hlast : ∀ q, 18 < q → ((boot {}).load.2.define "7" "1").2.dict.nameOf? q ≠ some "7" := by
    intro q hq hname
    have hlt := Dict.lt_size_of_nameOf? (hname ▸ Option.some_ne_none _)
    rw [hnames.last] at hlt
    exact Nat.not_lt_of_le hq hlt
  have hslots := hnames.slots (by decide) _ .refl hlast "7 8 07 7" _ _ rfl
  exact ⟨_, _, _, _, hreach, rfl, hnames, rfl, hslots, rfl, rfl, hrefused.refused rfl, rfl,
    (hfailed.failed _ rfl).2⟩

end Machine

end Threaded
