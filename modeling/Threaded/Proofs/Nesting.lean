import Mathlib.Order.Nat
import Threaded.Proofs.Calling
import Threaded.Proofs.Steps

/-!
# The limit of calls is exact

How deep the calls in a word can be nested is its height, the one function on words that is zero
without compounds and otherwise one more than the highest compound in a slot (`isHeight_iff`).  A
run that starts at depth zero is at no point deeper than the limit, apart from the call that is
refused, and the depth of a frame and the height of its word are together no more than the height
of the word that was run (`Thread.Within`).  So a run that breaks off at the limit does so one level
below it, and only if the word is higher than the limit (`Within.of_endsIn`).

The other direction needs a run that gets everywhere.  Where there is no branch, a run that succeeds
has been in every slot, and so it has had room for every call (`height_le_of_straight`).  A run with
a higher limit goes in step with one with a lower limit until that breaks off (`lawful_deepening`).
-/

namespace Threaded

/-! ## Heights -/

namespace Dict

/-- What the height of words is: zero if no slot refers to a compound, and otherwise one more than
the maximum of the heights of the compounds that slots refer to. -/
def IsHeight (d : Dict) (h : Array Ref → Nat) : Prop :=
  ∀ body,
    ((∀ r ∈ body, ∀ v, d.get? r ≠ some (.compound v)) → h body = 0) ∧
      (∀ r ∈ body, ∀ v, d.get? r = some (.compound v) → h v.body + 1 ≤ h body) ∧
      (h body = 0 ∨ ∃ r ∈ body, ∃ v, d.get? r = some (.compound v) ∧ h body = h v.body + 1)

variable {d : Dict} {body : Array Ref} {r : Ref} {v : Word}

/-- A word is higher than the compounds in its slots. -/
theorem height_lt_height (hd : d.Layered) (hr : r ∈ body) (hv : d.get? r = some (.compound v)) :
    d.height v.body + 1 ≤ d.height body := by
  rw [← callHeight_compound hd hv]
  exact callHeight_le_height hr

/-- A word that is not flat has a compound in a slot that is one lower. -/
theorem height_eq_zero_or (hd : d.Layered) (body : Array Ref) :
    d.height body = 0 ∨
      ∃ r ∈ body, ∃ v, d.get? r = some (.compound v) ∧ d.height body = d.height v.body + 1 := by
  by_cases hzero : d.height body = 0
  · exact .inl hzero
  · have hne : body.toList.map d.callHeight ≠ [] := by
      intro hnil
      rw [height, hnil] at hzero
      exact hzero rfl
    obtain ⟨r, hr, hheight⟩ := List.mem_map.1 (List.maximum_mem (List.foldr_max_of_ne_nil hne).symm)
    have hheight : d.callHeight r = d.height body := hheight
    by_cases hv : ∃ v, d.get? r = some (.compound v)
    · obtain ⟨v, hv⟩ := hv
      refine .inr ⟨r, Array.mem_toList_iff.1 hr, v, hv, ?_⟩
      rw [← hheight, callHeight_compound hd hv]
    · have hnone := callHeight_of_ne (d := d) (r := r) fun v hr => hv ⟨v, hr⟩
      exact absurd (hheight.symm.trans hnone) hzero

/-- The height that is computed is the height. -/
theorem isHeight_height (hd : d.Layered) : d.IsHeight d.height := by
  intro body
  refine ⟨?_, fun r hr v hv => height_lt_height hd hr hv, height_eq_zero_or hd body⟩
  intro hflat
  rcases height_eq_zero_or hd body with hzero | ⟨r, hr, v, hv, _⟩
  · exact hzero
  · exact absurd hv (hflat r hr v)

/-- Two heights are the same on words whose compounds have the same heights. -/
theorem IsHeight.eq_of_compounds {h h' : Array Ref → Nat} (hh : d.IsHeight h)
    (hh' : d.IsHeight h')
    (hbody : ∀ r ∈ body, ∀ v, d.get? r = some (.compound v) → h v.body = h' v.body) :
    h body = h' body := by
  obtain ⟨_, habove, hattained⟩ := hh body
  obtain ⟨_, habove', hattained'⟩ := hh' body
  apply Nat.le_antisymm
  · rcases hattained with hzero | ⟨r, hr, v, hv, heq⟩
    · omega
    · have := hbody r hr v hv
      have := habove' r hr v hv
      omega
  · rcases hattained' with hzero | ⟨r, hr, v, hv, heq⟩
    · omega
    · have := hbody r hr v hv
      have := habove r hr v hv
      omega

/-- **The height is well defined**, since compounds refer to older entries. -/
theorem isHeight_iff (hd : d.Layered) (h : Array Ref → Nat) : d.IsHeight h ↔ h = d.height := by
  constructor
  · intro hh
    have hheight := isHeight_height hd
    have hcompounds : ∀ r v, d.get? r = some (.compound v) → h v.body = d.height v.body := by
      intro r
      induction r using Nat.strongRecOn with
      | ind r ih =>
        intro v hv
        apply hh.eq_of_compounds hheight
        intro q hq u hu
        exact ih q (hd r q ⟨v, hv, hq⟩) u hu
    funext body
    apply hh.eq_of_compounds hheight
    intro r _ v hv
    exact hcompounds r v hv
  · rintro rfl
    exact isHeight_height hd

end Dict

/-! ## Depths -/

/-- A turn never breaks off at the limit of calls. -/
theorem Entry.turn_ne_limit {ip len : Nat} {e : Entry} {x : Bench.Action Nat}
    (hx : e.turn? ip len = some x) :
    Bench.RaisesOnly (fun e => ∀ d, e ≠ .recursionLimitExceeded d) x := by
  have hfollow : ∀ offset, Bench.RaisesOnly (fun e => ∀ d, e ≠ .recursionLimitExceeded d)
      (Bench.follow ip len offset) := by
    intro offset b e he
    rw [Bench.perform_follow] at he
    unfold Jump.target at he
    dsimp only at he
    split at he
    · cases he
    · cases he
      exact nofun
  rcases e with ⟨name, _ | op | s⟩ | w | value | offset | offset
  · obtain rfl := Option.some.inj hx
    exact .pure _
  · obtain rfl := Option.some.inj hx
    exact (Bench.raisesOnly_act nofun nofun nofun op).bind fun _ => .pure _
  · cases hx
  · cases hx
  · obtain rfl := Option.some.inj hx
    exact (Bench.RaisesOnly.push nofun value).bind fun _ => .pure _
  · obtain rfl := Option.some.inj hx
    exact hfollow offset
  · obtain rfl := Option.some.inj hx
    refine (Bench.RaisesOnly.pop nofun).bind fun n => ?_
    split
    · exact hfollow offset
    · exact .pure _

namespace Thread

/-- A word is run at depth `d`, or the entry that acts calls one there. -/
inductive Active (t : Thread) : Nat → Prop
  | frame {body : Array Ref} {ip depth : Nat} (h : .code body ip depth ∈ t.frames) :
    Active t depth
  | call {body : Array Ref} {ip depth : Nat} {rest : List Frame} {v : Word}
    (h : t.frames = .code body ip depth :: rest) (he : t.acting? = some (.compound v)) :
    Active t (depth + 1)

/-- The frames of a plain thread lie within the limit, and so do the depths to which their words can
call within `n`. -/
structure Within (n : Nat) (t : Thread) : Prop where
  plain : t.Plain
  layered : t.machine.dict.Layered
  depth : ∀ body ip depth, .code body ip depth ∈ t.frames →
    depth ≤ t.machine.limits.maxDepth ∧ depth + t.machine.dict.height body ≤ n

variable {n : Nat} {t t' : Thread} {d : Nat} {m' : Machine}

/-- **A call goes one level down, to a word that is one level lower.** -/
theorem Moves.depth {s : Step} (h : t.Moves s) (hs : s = .next t')
    (hlayered : t.machine.dict.Layered)
    (hdepth : ∀ body ip depth, .code body ip depth ∈ t.frames →
      depth ≤ t.machine.limits.maxDepth ∧ depth + t.machine.dict.height body ≤ n) :
    ∀ body ip depth, .code body ip depth ∈ t'.frames →
      depth ≤ t.machine.limits.maxDepth ∧ depth + t.machine.dict.height body ≤ n := by
  apply h.forall_code hs ?_ hdepth
  rintro body depth r w ⟨_, htop⟩ hr hw hroom
  have hlower := Dict.height_lt_height hlayered hr hw
  exact ⟨hroom, by omega⟩

/-- After a step a thread is within the limit of calls. -/
theorem Within.next (h : t.Within n) (hs : t.step = .next t') : t'.Within n := by
  obtain ⟨hplain, hdict, hlimits⟩ := h.plain.next hs
  refine ⟨hplain, ?_, ?_⟩
  · rw [hdict]
    exact h.layered
  · rw [hdict, hlimits]
    exact h.plain.moves.depth hs h.layered h.depth

/-- **Depths stay within the limit and the height** along a run. -/
theorem Within.leads (h : t.Within n) (hleads : t.Leads t') : t'.Within n := by
  induction hleads with
  | refl => exact h
  | tail _ hs ih => exact ih.next hs

/-- No word is run deeper than the limit, and none is called deeper than one level below. -/
theorem Within.active_le (h : t.Within n) (hd : t.Active d) :
    d ≤ t.machine.limits.maxDepth + 1 := by
  cases hd with
  | frame hf => exact Nat.le_succ_of_le (h.depth _ _ _ hf).1
  | call hframes =>
    have hf : _ ∈ t.frames := hframes ▸ List.mem_cons_self
    exact Nat.succ_le_succ (h.depth _ _ _ hf).1

/-- A step that breaks off at the limit was to call one level below it, in a word that was not to
stay within it. -/
theorem Within.of_step (h : t.Within n)
    (hs : t.step = .done (.error (.recursionLimitExceeded d)) m') :
    d = t.machine.limits.maxDepth + 1 ∧ t.machine.limits.maxDepth < n := by
  have hmoves := h.plain.moves
  rw [hs] at hmoves
  obtain ⟨m, frames⟩ := t
  have hlayered := h.layered
  have hdepth := h.depth
  generalize hdone : Step.done (.error (.recursionLimitExceeded d)) m' = s at hmoves
  cases hmoves with
  | finish | lost | back | call => cases hdone
  | @deep _ body ip depth r v rest hr he hdeep =>
    cases hdone
    obtain ⟨hle, hwithin⟩ := hdepth body ip depth List.mem_cons_self
    have hlower := Dict.height_lt_height hlayered (Array.mem_of_getElem? hr) he
    dsimp only at hle hwithin hlower hdeep ⊢
    omega
  | @turn _ body ip r e x depth rest hr he hx =>
    have hfail := (Machine.perform_eq_iff.1 (turned_eq_error_iff.1 hdone.symm))
    obtain ⟨b, hb, _⟩ := hfail
    exact absurd rfl (Entry.turn_ne_limit hx m.bench _ (congrArg Prod.fst hb) d)

/-- **A run that breaks off at the limit** does so one level below it, and it was not to stay
within it. -/
theorem Within.of_endsIn (h : t.Within n)
    (hends : t.EndsIn (.error (.recursionLimitExceeded d), m')) :
    d = t.machine.limits.maxDepth + 1 ∧ t.machine.limits.maxDepth < n := by
  obtain ⟨t', hleads, hs⟩ := hends.exists_leads
  have hwithin := (h.leads hleads).of_step hs
  rwa [(h.plain.leads hleads).2.2] at hwithin

end Thread

/-! ## Words without branches -/

namespace Dict

/-- There is no branch in a word, nor in the compounds that it reaches. -/
def Straight (d : Dict) (body : Array Ref) : Prop :=
  ∀ q ∈ body, ∀ r, Relation.ReflTransGen d.Calls q r → ∀ e, d.get? r = some e → e.offset? = none

variable {d : Dict} {body : Array Ref} {r : Ref} {v : Word} {e : Entry}

/-- No slot of straight code is a branch. -/
theorem Straight.offset? (h : d.Straight body) (hr : r ∈ body) (he : d.get? r = some e) :
    e.offset? = none :=
  h r hr r .refl e he

/-- Straight code calls straight code. -/
theorem Straight.compound (h : d.Straight body) (hr : r ∈ body)
    (hv : d.get? r = some (.compound v)) : d.Straight v.body :=
  fun _ hq s hqs => h r hr s (.head ⟨v, hv, hq⟩ hqs)

end Dict

/-- A turn that is no branch goes on with the next slot. -/
theorem Entry.turn_straight {ip ip' len : Nat} {e : Entry} {x : Bench.Action Nat} {b b' : Bench}
    (hx : e.turn? ip len = some x) (he : e.offset? = none) (h : b.perform x = (.ok ip', b')) :
    ip' = ip + 1 := by
  rcases Entry.turn_cases hx h with hnext | ⟨offset, hoffset, _⟩
  · exact hnext
  · rw [he] at hoffset
    cases hoffset

section Straight

open Behaviour

variable {d : Dict} {m m₁ : Machine} {body : Array Ref} {ip depth : Nat}

/-- A word on its own is a plain thread, where the standard set is bound at most. -/
theorem Thread.plain_code
    (hbound : ∀ r name action, m.dict.get? r = some (.primitive name action) → action.Standard)
    (body : Array Ref) (ip depth : Nat) : Thread.Plain ⟨m, [.code body ip depth]⟩ where
  bound := hbound
  words _ hf := ⟨body, ip, depth, List.mem_singleton.1 hf⟩

/-- A word without branches that succeeds goes on with the next slot, and a compound in the slot has
been called and has succeeded. -/
theorem next_of_straight
    (hbound : ∀ r name action, m.dict.get? r = some (.primitive name action) → action.Standard)
    (hstraight : m.dict.Straight body) {r : Ref} (hr : body[ip]? = some r)
    (h : ofFrames [.code body ip depth] m (.ok (), m₁)) :
    (∃ m₂, m₂.dict = m.dict ∧ m₂.limits = m.limits ∧
        ofFrames [.code body (ip + 1) depth] m₂ (.ok (), m₁)) ∧
      ∀ v, m.dict.get? r = some (.compound v) →
        depth + 1 ≤ m.limits.maxDepth ∧
          ∃ m₂, ofFrames [.code v.body 0 (depth + 1)] m (.ok (), m₂) := by
  have hends := (Thread.endsIn_iff _ _).1 h
  have hmoves := (Thread.plain_code hbound body ip depth).moves
  generalize Thread.step ⟨m, [.code body ip depth]⟩ = s at hends hmoves
  cases hmoves with
  | back _ depth rest hip =>
    rw [hr] at hip
    cases hip
  | lost | deep => cases hends
  | @call _ body ip depth q w rest hq hw hroom =>
    obtain rfl : r = q := Option.some.inj (hr.symm.trans hq)
    have hboth : ofFrames ([.code w.body 0 (depth + 1)] ++ [.code body (ip + 1) depth]) m
        (.ok (), m₁) := hends
    obtain ⟨result, m₂, hfirst, hrest⟩ := ofFrames_append.1 hboth
    rcases result with e | _
    · cases hrest
    · obtain ⟨hdict, hlimits⟩ := (Thread.plain_code hbound w.body 0 (depth + 1)).endsIn hfirst
      refine ⟨⟨m₂, hdict, hlimits, hrest⟩, ?_⟩
      intro v hv
      obtain rfl : w = v := by simpa [hw] using hv
      exact ⟨hroom, m₂, hfirst⟩
  | @turn _ body ip q e x depth rest hq he hx =>
    obtain rfl : r = q := Option.some.inj (hr.symm.trans hq)
    have hoffset := hstraight.offset? (Array.mem_of_getElem? hr) he
    generalize hperform : m.perform x = o at hends
    obtain ⟨err | ip', m₂⟩ := o
    · cases hends
    · obtain ⟨b, hb, rfl⟩ := Machine.perform_eq_iff.1 hperform
      obtain rfl := Entry.turn_straight hx hoffset hb
      refine ⟨⟨{ m with bench := b }, rfl, rfl, hends⟩, ?_⟩
      intro v hv
      obtain rfl : e = .compound v := Option.some.inj (he.symm.trans hv)
      cases hx

/-- **A word without branches that succeeds has called the compounds in its slots**, and they have
succeeded. -/
theorem calls_of_straight
    (hbound : ∀ r name action, d.get? r = some (.primitive name action) → action.Standard)
    (hstraight : d.Straight body) {j : Nat} {r : Ref} {v : Word} (hr : body[j]? = some r)
    (hv : d.get? r = some (.compound v)) (hm : m.dict = d) (hj : ip ≤ j)
    (h : ofFrames [.code body ip depth] m (.ok (), m₁)) :
    depth + 1 ≤ m.limits.maxDepth ∧
      ∃ m₂ m₃, m₂.dict = d ∧ m₂.limits = m.limits ∧
        ofFrames [.code v.body 0 (depth + 1)] m₂ (.ok (), m₃) := by
  -- nothing jumps, so the slots up to this one are gone through one by one
  induction hk : j - ip generalizing m ip with
  | zero =>
    subst hm
    obtain rfl : ip = j := by omega
    obtain ⟨_, hcall⟩ := next_of_straight hbound hstraight hr h
    obtain ⟨hroom, m₂, hfirst⟩ := hcall v hv
    exact ⟨hroom, m, m₂, rfl, rfl, hfirst⟩
  | succ k ih =>
    subst hm
    obtain ⟨hlt, _⟩ := Array.getElem?_eq_some_iff.1 hr
    have hslot : body[ip]? = some body[ip] := Array.getElem?_eq_getElem (by omega)
    obtain ⟨⟨m₂, hdict, hlimits, hrest⟩, _⟩ := next_of_straight hbound hstraight hslot h
    have hnext := ih hdict (by omega) hrest (by omega)
    rwa [hlimits] at hnext

/-- **A word without branches that succeeds is no higher than what is left of the limit.** -/
theorem height_le_of_straight
    (hbound : ∀ r name action, d.get? r = some (.primitive name action) → action.Standard)
    (hlayered : d.Layered) (hstraight : d.Straight body) (hm : m.dict = d)
    (hdepth : depth ≤ m.limits.maxDepth) (h : ofFrames [.code body 0 depth] m (.ok (), m₁)) :
    depth + d.height body ≤ m.limits.maxDepth := by
  induction hn : d.height body generalizing body depth m m₁ with
  | zero => exact hdepth
  | succ n ih =>
    obtain ⟨r, hr, v, hv, hheight⟩ := (Dict.height_eq_zero_or hlayered body).resolve_left (by omega)
    obtain ⟨j, hj⟩ := Array.mem_iff_getElem?.1 hr
    obtain ⟨hroom, m₂, m₃, hdict, hlimits, hcall⟩ :=
      calls_of_straight hbound hstraight hj hv hm (Nat.zero_le j) h
    rw [← hlimits] at hroom ⊢
    have hlower := ih (hstraight.compound hr hv) hdict hroom hcall (by omega)
    omega

end Straight

/-! ## Higher limits -/

/-- The runs of a word with a lower and with a higher limit of calls. -/
def deepening (d : Dict) (limits limits' : Limits) : Coupling where
  limits := limits
  limits' := limits'
  dict := d
  dict' := d
  refs := d.Old
  benches := Eq
  levels _ depth depth' := depth = depth'
  excused e := ∃ depth, e = .recursionLimitExceeded depth

/-- A larger limit of calls is a lawful coupling, in which the smaller limit is excused. -/
theorem lawful_deepening {d : Dict} (h : d.Sound Primitive.Standard) {limits limits' : Limits}
    (hdepth : limits.maxDepth ≤ limits'.maxDepth) : (deepening d limits limits').Lawful := by
  have helementary : Bench.Elementary Eq (deepening d limits limits').excused :=
    { push := fun _ _ _ hb => .inr (hb ▸ ⟨rfl, rfl⟩)
      pop := fun _ _ hb => .inr (hb ▸ ⟨rfl, rfl⟩)
      print := fun _ _ _ hb => .inr (hb ▸ ⟨rfl, rfl⟩)
      items := fun _ _ hb => hb ▸ rfl }
  refine .of_elementary (h.matches_old (.refl d)) helementary ?_
  rintro body depth _ rfl r _ w _
  by_cases hdeep : limits.maxDepth < depth + 1
  · exact (if_pos hdeep).mpr (.inl ⟨depth + 1, rfl⟩)
  · exact (if_neg hdeep).mpr ⟨Nat.le_trans (Nat.le_of_not_lt hdeep) hdepth, rfl⟩

/-! ## The theorem -/

namespace Machine

variable {m m₁ : Machine} {w : Word}

/-- The machine with this limit of calls. -/
def withDepth (m : Machine) (maxDepth : Nat) : Machine :=
  { m with limits := { m.limits with maxDepth } }

/-- How exactly the limit of calls bounds the runs of a word, from every stack. -/
structure DepthExact (m : Machine) (w : Word) : Prop where
  /-- No word is run or called deeper than one level below the limit. -/
  active : ∀ s c t t' d, (m.withBench s c).wordThread? w = some t → t.Leads t' → t'.Active d →
    d ≤ m.limits.maxDepth + 1
  /-- What breaks off at the limit does so one level below it, and the word is higher. -/
  exceeded : ∀ s c d m', (m.withBench s c).RunsTo w (.error (.recursionLimitExceeded d), m') →
    d = m.limits.maxDepth + 1 ∧ m.limits.maxDepth < m.dict.height w.body
  /-- A word that is no higher never breaks off there. -/
  never : m.dict.height w.body ≤ m.limits.maxDepth →
    ∀ s c d m', ¬ (m.withBench s c).RunsTo w (.error (.recursionLimitExceeded d), m')
  /-- A word without branches that succeeds if only the limit is high enough breaks off at this
  limit exactly if it is higher. -/
  straight : m.dict.Straight w.body →
    ∀ s c maxDepth m₁, ((m.withBench s c).withDepth maxDepth).RunsTo w (.ok (), m₁) →
      ((∃ d m', (m.withBench s c).RunsTo w (.error (.recursionLimitExceeded d), m')) ↔
        m.limits.maxDepth < m.dict.height w.body)

/-- A word that is to be run lies within the limit and its own height. -/
theorem within_start (h : Reachable (Command.Binds Primitive.Standard) m) (s : Stack Cell)
    (c : String) :
    Thread.Within (m.dict.height w.body) ⟨m.withBench s c, [.code w.body 0 0]⟩ where
  plain := Thread.plain_code (m := m.withBench s c)
    (h.sound fun _ hstandard => hstandard).bound w.body 0 0
  layered := h.layered
  depth body ip depth hf := by
    cases List.mem_singleton.1 hf
    exact ⟨Nat.zero_le _, Nat.le_of_eq (Nat.zero_add _)⟩

/-- A word without branches that is higher than the limit breaks off, if it would succeed with some
other limit. -/
theorem exceeds_of_straight (h : Reachable (Command.Binds Primitive.Standard) m)
    (hw : m.Accepts w) (hstraight : m.dict.Straight w.body) {s : Stack Cell} {c : String}
    {maxDepth : Nat} (hrun : ((m.withBench s c).withDepth maxDepth).RunsTo w (.ok (), m₁))
    (hhigh : m.limits.maxDepth < m.dict.height w.body) :
    ∃ d m', (m.withBench s c).RunsTo w (.error (.recursionLimitExceeded d), m') := by
  have hsound : m.dict.Sound Primitive.Standard := h.sound fun _ hstandard => hstandard
  have hhigher := (runsTo_iff (m := (m.withBench s c).withDepth maxDepth) hw _).1 hrun
  have hheight := height_le_of_straight hsound.bound h.layered hstraight
    (m := (m.withBench s c).withDepth maxDepth) rfl (Nat.zero_le _) hhigher
  have hle : m.limits.maxDepth ≤ maxDepth := by
    have hroom : 0 + m.dict.height w.body ≤ maxDepth := hheight
    omega
  have hlawful : (deepening m.dict m.limits { m.limits with maxDepth }).Lawful :=
    lawful_deepening hsound hle
  have hcoupled : Thread.Coupled (deepening m.dict m.limits { m.limits with maxDepth })
      ⟨m.withBench s c, [.code w.body 0 0]⟩
      ⟨(m.withBench s c).withDepth maxDepth, [.code w.body 0 0]⟩ :=
    ⟨⟨rfl, rfl, rfl, rfl, rfl⟩, .cons (.code 0 (Dict.forall₂_old_of_check hw) rfl) .nil⟩
  rcases hcoupled.endsIn hlawful with ⟨e, m', hends, d, rfl⟩ | ⟨_, hback⟩
  · exact ⟨d, m', (runsTo_iff (m := m.withBench s c) hw _).2 hends⟩
  -- or else it would succeed here too, and would have had room for all its calls
  · obtain ⟨⟨r, m₂⟩, hends, hresult, _⟩ := hback _ hhigher
    obtain rfl : r = .ok () := hresult
    have hfits := height_le_of_straight hsound.bound h.layered hstraight
      (m := m.withBench s c) rfl (Nat.zero_le _) hends
    have hroom : 0 + m.dict.height w.body ≤ m.limits.maxDepth := hfits
    omega

/-- **The limit of calls is exact, and bounds the path of calls.**  On a reachable machine whose
host binds the standard set at most there is one height of words, and for every word that passes
the check the limit is met as it says. -/
theorem depth_exact (h : Reachable (Command.Binds Primitive.Standard) m) (hw : m.Accepts w) :
    (∀ height, m.dict.IsHeight height ↔ height = m.dict.height) ∧ m.DepthExact w := by
  have hexceeded : ∀ s c d m',
      (m.withBench s c).RunsTo w (.error (.recursionLimitExceeded d), m') →
        d = m.limits.maxDepth + 1 ∧ m.limits.maxDepth < m.dict.height w.body := by
    intro s c d m' hrun
    exact (within_start h s c).of_endsIn ((runsTo_iff (m := m.withBench s c) hw _).1 hrun)
  refine ⟨Dict.isHeight_iff h.layered, ?_, hexceeded, ?_, ?_⟩
  · intro s c t t' d ht hleads hactive
    obtain ⟨rfl, _⟩ := of_wordThread? ht
    have hwithin := (within_start (w := w) h s c).leads hleads
    have hlimits := ((within_start (w := w) h s c).plain.leads hleads).2.2
    have hle := hwithin.active_le hactive
    rwa [hlimits] at hle
  · intro hlow s c d m' hrun
    exact Nat.not_lt_of_le hlow (hexceeded s c d m' hrun).2
  · intro hstraight s c maxDepth m₁ hrun
    constructor
    · rintro ⟨d, m', hbreaks⟩
      exact (hexceeded s c d m' hbreaks).2
    · exact exceeds_of_straight h hw hstraight hrun

/-- A call of a word that calls another, where one level is allowed and two are needed. -/
theorem depth_exact_nested :
    ∃ m w m', Reachable (Command.Binds Primitive.Standard) m ∧ m.Accepts w ∧
      m.dict.Straight w.body ∧ m.limits.maxDepth < m.dict.height w.body ∧
      (m.withBench ⟨[3], 1⟩ "").RunsTo w (.error (.recursionLimitExceeded 2), m') := by
  have hreach : Reachable (Command.Binds Primitive.Standard)
      (((boot { maxDepth := 1 }).load.2.define "TWICE" "DUP ADD").2.define "FOUR"
        "TWICE TWICE").2 :=
    .obey 0 (.obey 0 (.load (.of_primitives_eq_nil rfl) _) (c := .define "TWICE" "DUP ADD")
      (.of_primitives_eq_nil rfl) rfl) (c := .define "FOUR" "TWICE TWICE")
      (.of_primitives_eq_nil rfl) rfl
  generalize hm : (((boot { maxDepth := 1 }).load.2.define "TWICE" "DUP ADD").2.define "FOUR"
    "TWICE TWICE").2 = m at hreach
  have haccepts : m.Accepts { body := #[18] } := by
    subst hm
    rfl
  have hstraight : m.dict.Straight #[18] := by
    have hnone : ∀ e ∈ m.dict.entries.toList, e.offset? = none := by
      subst hm
      decide
    intro q _ r _ e he
    exact hnone e (Array.mem_toList_iff.2 (Array.mem_of_getElem? he))
  have hfour : m.dict.get? 18 = some (.compound { name := "FOUR", body := #[17, 17] }) := by
    subst hm
    rfl
  have htwice : m.dict.get? 17 = some (.compound { name := "TWICE", body := #[11, 1] }) := by
    subst hm
    rfl
  have hmax : m.limits.maxDepth = 1 := by
    subst hm
    rfl
  have hheight : m.limits.maxDepth < m.dict.height #[18] := by
    have houter := Dict.height_lt_height hreach.layered (show 18 ∈ #[18] by simp) hfour
    have hinner := Dict.height_lt_height hreach.layered (show 17 ∈ #[17, 17] by simp) htwice
    dsimp only at houter hinner
    omega
  obtain ⟨_, hexact⟩ := depth_exact (w := { body := #[18] }) hreach haccepts
  obtain ⟨m₁, hrun⟩ : ∃ m₁, ((m.withBench ⟨[3], 1⟩ "").withDepth 2).RunsTo { body := #[18] }
      (.ok (), m₁) := by
    subst hm
    exact ⟨_, 20, rfl⟩
  obtain ⟨d, m', hbreaks⟩ := (hexact.straight hstraight _ _ _ _ hrun).2 hheight
  obtain ⟨rfl, _⟩ := hexact.exceeded _ _ _ _ hbreaks
  rw [hmax] at hbreaks
  exact ⟨m, _, m', hreach, haccepts, hstraight, hheight, hbreaks⟩

end Machine

end Threaded
