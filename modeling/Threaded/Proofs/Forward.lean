import Threaded.Proofs.Nesting
import Threaded.Proofs.Throughout

/-!
# Words that go forward come to an end

A word in which no branch goes back, nor one in a compound that it reaches, comes to an end from
every stack and under all limits, with success or with an error (`ends_of_forward`).  Two things
shrink.  Where the word goes on, at the next slot or where a branch lands, is behind the slot that
has acted; and a call is of a word that is lower.  So the induction is on the height of the word,
and for one word on the slots that are left.

The slots that are executed from the start of a word to its end, the calls in between left out, are
what its **activation** executes (`Thread.executed`).  They come in strictly increasing order.

Nothing goes back in a line in which no branch with a negative offset is written by hand, if nothing
does in the definitions that it uses: IF and ELSE are sent to what closes them, which is behind them
(`forward_of_compile`).
-/

namespace Threaded

/-- A branch that does not go back lands behind its own slot.  The bound on the size of a word is
that of everything in memory; at the greatest cell sums that are too large would end in the word. -/
theorem Jump.lt_of_target {ip len t : Nat} {offset : Cell} (hip : ip < len) (hlen : len < 2 ^ 63)
    (hoffset : 0 ≤ offset.toInt) (h : target ip offset len = .ok t) : ip < t := by
  have hdest := Cell.toInt_ofIntClamp (ip + offset.toInt + 1)
  rw [← dest_eq_ofIntClamp (by omega)] at hdest
  unfold target at h
  dsimp only at h
  split at h
  · cases h
    omega
  · cases h

/-! ## Words that go forward -/

namespace Entry

/-- An entry that is no branch back. -/
def Onward (e : Entry) : Prop :=
  ∀ offset, e.offset? = some offset → 0 ≤ offset.toInt

/-- A compound is as short as all that is in memory. -/
def InMemory (e : Entry) : Prop :=
  ∀ v, e = .compound v → v.body.size < 2 ^ 63

/-- An entry that is no branch back goes on with a later slot. -/
theorem Onward.lt_of_turn {ip ip' len : Nat} {e : Entry} {x : Bench.Action Nat} {b b' : Bench}
    (he : e.Onward) (hip : ip < len) (hlen : len < 2 ^ 63) (hx : e.turn? ip len = some x)
    (h : b.perform x = (.ok ip', b')) : ip < ip' := by
  rcases turn_cases hx h with rfl | ⟨offset, hoffset, htarget⟩
  · exact Nat.lt_succ_self ip
  · exact Jump.lt_of_target hip hlen (he offset hoffset) htarget

end Entry

namespace Dict

/-- No branch in a word goes back, nor one in a compound that it reaches. -/
def Forward (d : Dict) (body : Array Ref) : Prop :=
  d.Throughout Entry.Onward body

/-- A word and the compounds that it reaches are as short as all that is in memory. -/
structure InMemory (d : Dict) (body : Array Ref) : Prop where
  size : body.size < 2 ^ 63
  compounds : d.Throughout Entry.InMemory body

variable {d : Dict} {body : Array Ref} {r : Ref} {v : Word}

/-- What a word in memory calls is in memory. -/
theorem InMemory.of_compound (h : d.InMemory body) (hr : r ∈ body)
    (hv : d.get? r = some (.compound v)) : d.InMemory v.body where
  size := h.compounds.slot hr hv v rfl
  compounds := h.compounds.compound hr hv

end Dict

section Ends

open Behaviour

variable {d : Dict} {m : Machine} {body : Array Ref}

/-- **A word that goes forward ends.** -/
theorem ends_of_forward
    (hbound : ∀ r name action, d.get? r = some (.primitive name action) → action.Standard)
    (hlayered : d.Layered) (hforward : d.Forward body) (hmem : d.InMemory body) (hm : m.dict = d)
    (ip depth : Nat) : ∃ o, ofFrames [.code body ip depth] m o := by
  induction hn : d.height body using Nat.strongRecOn generalizing body m ip depth with
  | ind n ihcall =>
  induction hk : body.size - ip using Nat.strongRecOn generalizing m ip with
  | ind k ihnext =>
  subst hm hn hk
  have hplain : Thread.Plain ⟨m, [.code body ip depth]⟩ := Thread.plain_code hbound body ip depth
  have hmoves := hplain.moves
  have hends := Thread.endsIn_iff ⟨m, [.code body ip depth]⟩
  generalize Thread.step ⟨m, [.code body ip depth]⟩ = s at hmoves hends
  cases hmoves with
  | back => exact ⟨(.ok (), m), (hends _).2 (ofFrames_nil.2 rfl)⟩
  | lost | deep => exact ⟨_, (hends _).2 rfl⟩
  | @call _ body ip depth r w _ hr hw _ =>
    obtain ⟨hip, _⟩ := Array.getElem?_eq_some_iff.1 hr
    have hmem' := Array.mem_of_getElem? hr
    -- the compound ends, since it is lower, and if it succeeds the word goes on with the next slot
    obtain ⟨⟨result, m₁⟩, hfirst⟩ := ihcall _ (Dict.height_lt_height hlayered hmem' hw)
      (hforward.compound hmem' hw) (hmem.of_compound hmem' hw) rfl 0 (depth + 1) rfl
    rcases result with e | _
    · exact ⟨(.error e, m₁), (hends _).2 (ofFrames_append.2 ⟨_, m₁, hfirst, rfl⟩)⟩
    · obtain ⟨hdict, _⟩ := (Thread.plain_code hbound w.body 0 (depth + 1)).endsIn hfirst
      obtain ⟨o, hrest⟩ := ihnext _ (by omega) hdict (ip + 1) rfl
      exact ⟨o, (hends o).2 (ofFrames_append.2 ⟨_, m₁, hfirst, hrest⟩)⟩
  | @turn _ body ip r e x depth _ hr he hx =>
    obtain ⟨hip, _⟩ := Array.getElem?_eq_some_iff.1 hr
    generalize hperform : m.perform x = o at hends
    obtain ⟨err | ip', m₁⟩ := o
    · exact ⟨_, (hends _).2 rfl⟩
    · obtain ⟨b, hb, rfl⟩ := Machine.perform_eq_iff.1 hperform
      have honward := hforward.slot (Array.mem_of_getElem? hr) he
      have hlt := honward.lt_of_turn hip hmem.size hx hb
      have hdict : ({ m with bench := b } : Machine).dict = m.dict := rfl
      obtain ⟨o, hrest⟩ := ihnext (body.size - ip') (by omega) hdict ip' rfl
      exact ⟨o, (hends o).2 hrest⟩

end Ends

/-! ## Activations -/

namespace Thread

/-- The slot that acts in the next step, if that is one of the word with `below` frames under it. -/
def slot? (below : Nat) (t : Thread) : Option Nat :=
  match t.frames with
  | .code body ip _ :: rest => if rest.length = below ∧ ip < body.size then some ip else none
  | _ => none

/-- The slots, in order, that are executed in the activation of the word with `below` frames under
it, until it is over or so many steps are done. -/
def executed (below : Nat) : Nat → Thread → List Nat
  | 0, _ => []
  | fuel + 1, t =>
    if t.frames.length ≤ below then []
    else (t.slot? below).toList ++
      match t.step with
      | .next t => executed below fuel t
      | .done _ _ => []

/-- A plain thread in which all words go forward. -/
structure Forward (t : Thread) : Prop where
  plain : t.Plain
  words : ∀ body ip depth, .code body ip depth ∈ t.frames →
    t.machine.dict.Forward body ∧ t.machine.dict.InMemory body

variable {t t' : Thread} {below fuel ip depth : Nat} {m : Machine} {body : Array Ref}
  {rest : List Frame}

/-- **A thread that goes forward** goes on so. -/
theorem Forward.next (h : t.Forward) (hs : t.step = .next t') : t'.Forward := by
  obtain ⟨hplain, hdict, _⟩ := h.plain.next hs
  refine ⟨hplain, ?_⟩
  rw [hdict]
  refine h.plain.moves.forall_code hs ?_ h.words
  rintro body depth r w ⟨hforward, hmem⟩ hr hw _
  exact ⟨hforward.compound hr hw, hmem.of_compound hr hw⟩

/-- What a forward thread leads to is forward. -/
theorem Forward.leads (h : t.Forward) (hleads : t.Leads t') : t'.Forward := by
  induction hleads with
  | refl => exact h
  | tail _ hs ih => exact ih.next hs

/-- Where the word on top is still there after a step, it goes on with a later slot. -/
theorem Forward.top (h : Forward ⟨m, .code body ip depth :: rest⟩)
    (hs : step ⟨m, .code body ip depth :: rest⟩ = .next t') :
    t'.frames = rest ∨
      ∃ called ip', ip < ip' ∧ t'.frames = called ++ .code body ip' depth :: rest := by
  have hmoves := h.plain.moves
  rw [hs] at hmoves
  obtain ⟨hforward, hmem⟩ := h.words body ip depth List.mem_cons_self
  generalize hnext : Step.next t' = s at hmoves
  cases hmoves with
  | lost | deep => cases hnext
  | back =>
    cases hnext
    exact .inl rfl
  | @call _ body ip depth r w rest hr hw =>
    cases hnext
    exact .inr ⟨[.code w.body 0 (depth + 1)], ip + 1, Nat.lt_succ_self ip, rfl⟩
  | @turn _ body ip r e x depth rest hr he hx =>
    obtain ⟨hip, _⟩ := Array.getElem?_eq_some_iff.1 hr
    generalize hperform : m.perform x = o at hnext
    obtain ⟨err | ip', m₁⟩ := o
    · cases hnext
    · cases hnext
      obtain ⟨b, hb, rfl⟩ := Machine.perform_eq_iff.1 hperform
      have honward := hforward.slot (Array.mem_of_getElem? hr) he
      have hlt := honward.lt_of_turn hip hmem.size hx hb
      exact .inr ⟨[], ip', hlt, rfl⟩

/-- The word with `below` frames under it does not act while there is another on top of it. -/
theorem slot?_of_lt (h : below + 1 < t.frames.length) : t.slot? below = none := by
  unfold slot?
  split
  · next heq =>
    rw [heq, List.length_cons] at h
    exact if_neg fun hact => by omega
  · rfl

/-- A thread that is back at the frames below executes nothing above them. -/
theorem executed_of_le (h : t.frames.length ≤ below) : t.executed below fuel = [] := by
  cases fuel with
  | zero => rfl
  | succ fuel => rw [executed, if_pos h]

/-- What is executed after a slot is behind it. -/
theorem sorted_slot {later : List Nat} {slot : Option Nat} (hslot : ∀ i ∈ slot, i = ip)
    (hbehind : ∀ i ∈ later, ip < i) (hsorted : later.Pairwise (· < ·)) :
    (∀ i ∈ slot.toList ++ later, ip ≤ i) ∧ (slot.toList ++ later).Pairwise (· < ·) := by
  cases slot with
  | none => exact ⟨fun i hi => Nat.le_of_lt (hbehind i hi), hsorted⟩
  | some i =>
    obtain rfl := hslot i rfl
    refine ⟨?_, List.pairwise_cons.2 ⟨hbehind, hsorted⟩⟩
    intro j hj
    rcases List.mem_cons.1 hj with rfl | hj
    · exact Nat.le_refl j
    · exact Nat.le_of_lt (hbehind j hj)

/-- **An activation executes later and later slots.**  Above the frame of the word that is activated
there may be frames of words that it has called. -/
theorem Forward.executed_sorted : (fuel : Nat) → {t : Thread} → t.Forward → (called : List Frame) →
    {ip : Nat} → t.frames = called ++ .code body ip depth :: rest →
      (∀ i ∈ t.executed rest.length fuel, ip ≤ i) ∧
        (t.executed rest.length fuel).Pairwise (· < ·)
  | 0, _, _, _, _, _ => ⟨nofun, .nil⟩
  | fuel + 1, ⟨m, frames⟩, h, called, ip, hframes => by
    obtain rfl : frames = called ++ .code body ip depth :: rest := hframes
    have hopen : ¬ (called ++ .code body ip depth :: rest).length ≤ rest.length := by
      rw [List.length_append, List.length_cons]
      omega
    rw [executed, if_neg hopen]
    cases called with
    | nil =>
      rw [List.nil_append]
      have hslot : ∀ i ∈ slot? rest.length ⟨m, .code body ip depth :: rest⟩, i = ip := by
        intro i hi
        simp only [slot?] at hi
        split at hi
        · exact (Option.some.inj hi).symm
        · cases hi
      cases hs : step ⟨m, .code body ip depth :: rest⟩ with
      | done r m' => exact sorted_slot hslot (fun i hi => absurd hi List.not_mem_nil) .nil
      | next t' =>
        rcases h.top hs with hover | ⟨called, ip', hlt, hframes⟩
        · dsimp only
          rw [executed_of_le (Nat.le_of_eq (congrArg List.length hover))]
          exact sorted_slot hslot (fun i hi => absurd hi List.not_mem_nil) .nil
        · obtain ⟨hbehind, hsorted⟩ := executed_sorted fuel (h.next hs) called hframes
          exact sorted_slot hslot (fun i hi => Nat.lt_of_lt_of_le hlt (hbehind i hi)) hsorted
    | cons f called =>
      -- a word that was called is on top, and its step leaves the frames below alone
      have hslot : slot? rest.length ⟨m, f :: called ++ .code body ip depth :: rest⟩ = none := by
        apply slot?_of_lt
        simp only [List.length_append, List.length_cons]
        omega
      rw [hslot, step_append]
      cases hs : step ⟨m, f :: called⟩ with
      | done r m' => exact ⟨nofun, .nil⟩
      | next t' =>
        refine executed_sorted fuel (h.next ?_) t'.frames rfl
        rw [step_append, hs]
        rfl

/-- The same of any activation that is in progress. -/
theorem Forward.executed_pairwise (h : t.Forward) (below fuel : Nat) :
    (t.executed below fuel).Pairwise (· < ·) := by
  by_cases hover : t.frames.length ≤ below
  · rw [executed_of_le hover]
    exact .nil
  · have hlt : t.frames.length - below - 1 < t.frames.length := by omega
    have hsplit : t.frames = t.frames.take (t.frames.length - below - 1) ++
        t.frames[t.frames.length - below - 1] ::
          t.frames.drop (t.frames.length - below - 1 + 1) := by simp
    obtain ⟨body, ip, depth, hframe⟩ := h.plain.words _ (List.getElem_mem hlt)
    have hbelow : (t.frames.drop (t.frames.length - below - 1 + 1)).length = below := by
      rw [List.length_drop]
      omega
    rw [hframe] at hsplit
    have hsorted := (h.executed_sorted fuel _ hsplit).2
    rwa [hbelow] at hsorted

/-- The first arm of a conditional is passed over: the number, IF, what is behind the ELSE, and END
are executed. -/
example : executed 0 9 ⟨((Machine.boot {}).load.2.compile "0 IF 2 ELSE 3 END").2,
    [.code #[17, 18, 19, 20, 21, 0] 0 0]⟩ = [0, 1, 4, 5] := by
  decide

end Thread

/-! ## Lines that go forward -/

/-- No branch among the tokens that is written by hand goes back. -/
def Symbol.NoneBack (symbols : List Symbol) : Prop :=
  ∀ offset, .branch offset ∈ symbols ∨ .zbranch offset ∈ symbols → 0 ≤ offset.toInt

namespace Symbol

variable {d : Dict} {symbols : List Symbol} {t : Nat} {s : Symbol} {e : Entry}

/-- **IF and ELSE are not sent back**: the entry of a token is a branch back only if it is written
so. -/
theorem Enters.onward (h : Enters d symbols t s e) (hs : symbols[t]? = some s)
    (hback : NoneBack symbols) : e.Onward := by
  have hmem := List.mem_of_getElem? hs
  intro o ho
  cases h with
  | branch offset => exact Option.some.inj ho ▸ hback offset (.inl hmem)
  | zbranch offset => exact Option.some.inj ho ▸ hback offset (.inr hmem)
  | closedIf hc hoffset | closedElse hc hoffset =>
    obtain rfl := Option.some.inj ho
    have hbehind := hc.behind
    omega
  | openIf | openElse => exact Option.some.inj ho ▸ by decide
  | number => cases ho

end Symbol

namespace Machine

variable {m m' : Machine} {w : Word} {line : String} {r : Ref}

/-- The compound `r` was defined by a line in which no branch goes back, and so were the compounds
that this line uses; whatever has been done to the machine since. -/
inductive WrittenForward : Machine → Ref → Prop
  | define {m m' : Machine} {name source : String} {r : Ref}
    (hm : Reachable (Command.Binds Primitive.Standard) m) (hsource : source.utf8ByteSize < 2 ^ 63)
    (hback : Symbol.NoneBack (lineSymbols source))
    (huses : ∀ text q v, .word text ∈ lineSymbols source → m.dict.lookup text = some q →
      m.dict.get? q = some (.compound v) → WrittenForward m q)
    (h : m.define name source = (.ok r, m')) : WrittenForward m' r
  | later {m m' : Machine} {r : Ref} (h : WrittenForward m r) (hlater : m.Becomes m') :
    WrittenForward m' r

/-- No branch goes back in a line, and the definitions that it uses are written so. -/
structure LineForward (m : Machine) (line : String) : Prop where
  back : Symbol.NoneBack (lineSymbols line)
  uses : ∀ text q v, .word text ∈ lineSymbols line → m.dict.lookup text = some q →
    m.dict.get? q = some (.compound v) → WrittenForward m q

/-- **The word of a line in which no branch goes back** goes forward, if the compounds in it do. -/
theorem forward_of_compile {allowed : Command → Prop} (h : Reachable allowed m)
    (hline : line.utf8ByteSize < 2 ^ 63) (hback : Symbol.NoneBack (lineSymbols line))
    (huses : ∀ text q v, .word text ∈ lineSymbols line → m.dict.lookup text = some q →
      m.dict.get? q = some (.compound v) →
        m.dict.Throughout (fun e => e.Onward ∧ e.InMemory) #[q])
    (hc : m.compile line = (.ok (some w), m')) :
    m'.dict.Forward w.body ∧ m'.dict.InMemory w.body := by
  have hthroughout : m'.dict.Throughout (fun e => e.Onward ∧ e.InMemory) w.body := by
    refine throughout_of_compile h hline ⟨nofun, nofun⟩ ?_ ?_ hc
    · intro text q htext hq
      have hlt := h.chronicled.lookup_eq_some_iff.1 hq
      obtain ⟨e, he, hname⟩ := Option.bind_eq_some_iff.1 hlt.1
      cases e with
      | compound v => exact huses text q v htext hq he
      | primitive => exact (Dict.throughout_singleton_iff he).2 ⟨⟨nofun, nofun⟩, nofun⟩
      | literal | branch | zbranch => cases hname
    · exact fun t s e hs henters =>
        ⟨henters.onward hs hback, fun v hv => absurd hv (henters.ne_compound v)⟩
  have hsize := length_lineSymbols_lt hline
  rw [← (assembled_of_compile h hline hc).size] at hsize
  exact ⟨hthroughout.left, hsize, hthroughout.right⟩

/-- What a machine becomes under commands can be reached. -/
theorem Becomes.reachable (h : m.Becomes m') (hm : Reachable (fun _ => True) m) :
    Reachable (fun _ => True) m' := by
  induction h with
  | refl => exact hm
  | tail _ hobey ih =>
    obtain ⟨fuel, c, r, hobey⟩ := hobey
    exact .obey fuel ih trivial hobey

/-- **A definition that is written forward goes forward**, and goes on doing so. -/
theorem WrittenForward.forward (h : WrittenForward m r) :
    Reachable (fun _ => True) m ∧ r < m.dict.size ∧
      m.dict.Throughout (fun e => e.Onward ∧ e.InMemory) #[r] := by
  induction h with
  | @define m m' name source r hm hsource hback _ h ih =>
    obtain ⟨w, m₂, hc, _, _, _, hgrows, hget⟩ := of_define h
    have hreach : Reachable (fun _ => True) m := hm.mono fun _ _ => trivial
    have hreach₂ : Reachable (fun _ => True) m₂ := hreach.compile trivial hc
    have hreach' : Reachable (fun _ => True) m' := hreach.define trivial h
    obtain ⟨hforward, hmem⟩ : m₂.dict.Forward (slotsOf w) ∧ m₂.dict.InMemory (slotsOf w) := by
      cases w with
      | none =>
        have hnone : ∀ p, m₂.dict.Throughout p #[] :=
          fun p => Dict.throughout_of_slots fun _ hr => absurd hr (Array.not_mem_empty _)
        exact ⟨hnone _, by decide, hnone _⟩
      | some w =>
        exact forward_of_compile hm hsource hback
          (fun text q v htext hq hv => (ih text q v htext hq hv).2.2) hc
    refine ⟨hreach', Dict.lt_size_of_get? hget, (Dict.throughout_singleton_iff hget).2 ?_⟩
    refine ⟨⟨nofun, fun v hv => ?_⟩, fun v hv => ?_⟩
    · cases hv
      exact hmem.size
    · cases hv
      exact (hforward.and hmem.compounds).of_extends hgrows hreach₂.layered
        fun q => Dict.lt_size_of_check (check_slotsOf hc)
  | @later m m' r _ hlater ih =>
    obtain ⟨hreach, hlt, hthroughout⟩ := ih
    refine ⟨hlater.reachable hreach, Nat.lt_of_lt_of_le hlt hlater.grows.dict.size_le, ?_⟩
    refine hthroughout.of_extends hlater.grows.dict hreach.layered ?_
    intro q hq
    obtain rfl := Array.mem_singleton.1 hq
    exact hlt

/-! ## The theorem -/

/-- How a word that goes forward runs, whatever is on the bench and under all limits. -/
structure RunsForward (m : Machine) (w : Word) : Prop where
  /-- Every run ends, with success or with an error. -/
  ends : ∀ limits bench, ∃ o, RunsTo { m with limits, bench } w o
  /-- At every point of a run, an activation that is in progress executes its slots from there on in
  strictly increasing order, and so none of them twice. -/
  sorted : ∀ limits bench t t' below fuel, wordThread? { m with limits, bench } w = some t →
    t.Leads t' →
      (t'.executed below fuel).Pairwise (· < ·) ∧ (t'.executed below fuel).Nodup

/-- **Code without branches back comes to its end**, slot by slot. -/
theorem runsForward (h : Reachable (Command.Binds Primitive.Standard) m) (hw : m.Accepts w)
    (hmem : m.dict.InMemory w.body) (hforward : m.dict.Forward w.body) : m.RunsForward w := by
  have hbound := (h.sound fun _ hstandard => hstandard).bound
  constructor
  · intro limits bench
    obtain ⟨o, ho⟩ := ends_of_forward (m := { m with limits, bench }) hbound h.layered hforward hmem
      rfl 0 0
    exact ⟨o, (runsTo_iff (m := { m with limits, bench }) hw o).2 ho⟩
  · intro limits bench t t' below fuel ht hleads
    obtain ⟨rfl, _⟩ := of_wordThread? ht
    have hstart : Thread.Forward ⟨{ m with limits, bench }, [.code w.body 0 0]⟩ := by
      refine ⟨Thread.plain_code (m := { m with limits, bench }) hbound w.body 0 0, ?_⟩
      intro body ip depth hf
      cases List.mem_singleton.1 hf
      exact ⟨hforward, hmem⟩
    have hsorted := (hstart.leads hleads).executed_pairwise below fuel
    exact ⟨hsorted, hsorted.imp Nat.ne_of_lt⟩

/-- **Programs without branches back come to an end.**  On a reachable machine whose host binds the
standard set at most, every word that passes the check and goes forward runs to its end.  The words
of lines in which no branch goes back are such words, if the definitions that the lines use are
written so; and evaluating such a line comes to an end from every stack. -/
theorem forward_ends (h : Reachable (Command.Binds Primitive.Standard) m) :
    (∀ w, m.Accepts w → m.dict.InMemory w.body → m.dict.Forward w.body → m.RunsForward w) ∧
      ∀ line, line.utf8ByteSize < 2 ^ 63 → m.LineForward line →
        (∀ w m', m.compile line = (.ok (some w), m') →
          m'.Accepts w ∧ m'.dict.Forward w.body ∧ m'.RunsForward w) ∧
        ∀ s c, ∃ o, (m.withBench s c).EvalsTo line o := by
  refine ⟨fun w => runsForward h, fun line hline hforward => ?_⟩
  have hword : ∀ w m', m.compile line = (.ok (some w), m') →
      m'.Accepts w ∧ m'.dict.Forward w.body ∧ m'.RunsForward w := by
    intro w m' hc
    have hreach : Reachable (Command.Binds Primitive.Standard) m' :=
      h.compile (.of_primitives_eq_nil rfl) hc
    obtain ⟨hgoes, hmem⟩ := forward_of_compile h hline hforward.back
      (fun text q v htext hq hv => (hforward.uses text q v htext hq hv).forward.2.2) hc
    exact ⟨check_of_compile hc, hgoes, runsForward hreach (check_of_compile hc) hmem hgoes⟩
  refine ⟨hword, fun s c => ?_⟩
  rcases hc : (m.withBench s c).compile line with ⟨e | (_ | w), m'⟩
  · exact ⟨(.error e, m'), (evalsTo_iff _ _ _).2 (by rw [hc])⟩
  · exact ⟨(.ok (), m'), (evalsTo_iff _ _ _).2 (by rw [hc])⟩
  · obtain ⟨_, _, hruns⟩ := hword w _ (compile_withBench hc m.bench.stack m.bench.console)
    obtain ⟨o, ho⟩ := hruns.ends m'.limits m'.bench
    refine ⟨o, (evalsTo_iff _ _ _).2 ?_⟩
    rw [hc]
    exact ho

/-- A distance uses a definition that is written with a conditional, and whose name is then bound to
a word that goes back for ever. -/
theorem forward_ends_redefined :
    ∃ m, Reachable (Command.Binds Primitive.Standard) m ∧ m.dict.lookup "ABS" = some 22 ∧
      m.dict.get? 22 = some (.compound { name := "ABS", body := #[21] }) ∧
      m.dict.get? 21 = some (.branch (-1)) ∧
      (∀ w m', m.compile "3 7 DIST" = (.ok (some w), m') → m'.RunsForward w) ∧
      ∀ s c, ∃ o, (m.withBench s c).EvalsTo "3 7 DIST" o := by
  have hloaded : Reachable (Command.Binds Primitive.Standard) (boot {}).load.2 :=
    .load (.of_primitives_eq_nil rfl) {}
  have habs : lineSymbols "DUP 0 < IF NEG END" =
      [.word "DUP", .word "0", .word "<", .ifMark, .word "NEG", .endMark] := by decide
  have hdist : lineSymbols "SUB ABS" = [.word "SUB", .word "ABS"] := by decide
  have hline : lineSymbols "3 7 DIST" = [.word "3", .word "7", .word "DIST"] := by decide
  obtain ⟨m₁, h₁⟩ : ∃ m, m = ((boot {}).load.2.define "ABS" "DUP 0 < IF NEG END").2 := ⟨_, rfl⟩
  obtain ⟨m₂, h₂⟩ : ∃ m, m = (m₁.define "DIST" "SUB ABS").2 := ⟨_, rfl⟩
  obtain ⟨m₃, h₃⟩ : ∃ m, m = (m₂.define "ABS" "BRANCH-1").2 := ⟨_, rfl⟩
  have hdefine₁ : (boot {}).load.2.define "ABS" "DUP 0 < IF NEG END" = (.ok 19, m₁) := h₁ ▸ rfl
  have hdefine₂ : m₁.define "DIST" "SUB ABS" = (.ok 20, m₂) := by subst h₂ h₁; rfl
  have hdefine₃ : m₂.define "ABS" "BRANCH-1" = (.ok 22, m₃) := by subst h₃ h₂ h₁; rfl
  have hreach₁ : Reachable (Command.Binds Primitive.Standard) m₁ :=
    hloaded.define (.of_primitives_eq_nil rfl) hdefine₁
  have hreach₂ : Reachable (Command.Binds Primitive.Standard) m₂ :=
    hreach₁.define (.of_primitives_eq_nil rfl) hdefine₂
  have hreach₃ : Reachable (Command.Binds Primitive.Standard) m₃ :=
    hreach₂.define (.of_primitives_eq_nil rfl) hdefine₃
  have hwritten₁ : WrittenForward m₁ 19 := by
    refine .define hloaded (by decide) ?_ ?_ hdefine₁
    · rw [habs]
      rintro offset (h | h) <;> simp at h
    · rw [habs]
      intro text q v htext hq hv
      obtain ⟨hdup, hzero, hless, hneg⟩ : (boot {}).load.2.dict.lookup "DUP" = some 11 ∧
          (boot {}).load.2.dict.lookup "0" = none ∧ (boot {}).load.2.dict.lookup "<" = some 8 ∧
          (boot {}).load.2.dict.lookup "NEG" = some 6 := by decide
      obtain rfl | rfl | rfl | rfl : text = "DUP" ∨ text = "0" ∨ text = "<" ∨ text = "NEG" := by
        simpa using htext
      · cases hdup.symm.trans hq
        cases hv
      · cases hzero.symm.trans hq
      · cases hless.symm.trans hq
        cases hv
      · cases hneg.symm.trans hq
        cases hv
  have hwritten₂ : WrittenForward m₂ 20 := by
    refine .define hreach₁ (by decide) ?_ ?_ hdefine₂
    · rw [hdist]
      rintro offset (h | h) <;> simp at h
    · rw [hdist]
      intro text q v htext hq hv
      obtain rfl | rfl : text = "SUB" ∨ text = "ABS" := by simpa using htext
      · have hsub : m₁.dict.lookup "SUB" = some 2 := by subst h₁; decide
        have hprimitive : m₁.dict.get? 2 = some (.primitive "SUB" (.op .sub)) := by subst h₁; rfl
        cases hsub.symm.trans hq
        cases hprimitive.symm.trans hv
      · have habs : m₁.dict.lookup "ABS" = some 19 := by subst h₁; decide
        cases habs.symm.trans hq
        exact hwritten₁
  have hforward : m₃.LineForward "3 7 DIST" := by
    have hbecomes : m₂.Becomes m₃ :=
      .single ⟨0, .define "ABS" "BRANCH-1", _, by rw [obey, hdefine₃]; rfl⟩
    constructor
    · rw [hline]
      rintro offset (h | h) <;> simp at h
    · rw [hline]
      intro text q v htext hq hv
      obtain ⟨hthree, hseven, hdist⟩ : m₃.dict.lookup "3" = none ∧ m₃.dict.lookup "7" = none ∧
          m₃.dict.lookup "DIST" = some 20 := by subst h₃ h₂ h₁; decide
      obtain rfl | rfl | rfl : text = "3" ∨ text = "7" ∨ text = "DIST" := by simpa using htext
      · cases hthree.symm.trans hq
      · cases hseven.symm.trans hq
      · cases hdist.symm.trans hq
        exact .later hwritten₂ hbecomes
  obtain ⟨-, hends⟩ := forward_ends hreach₃
  obtain ⟨hruns, hevals⟩ := hends "3 7 DIST" (by decide) hforward
  refine ⟨m₃, hreach₃, ?_, ?_, ?_, fun w m' hc => (hruns w m' hc).2.2, hevals⟩
  · subst h₃ h₂ h₁; decide
  · subst h₃ h₂ h₁; rfl
  · subst h₃ h₂ h₁; rfl

end Machine

end Threaded
