import Threaded.Jump
import Threaded.Proofs.Cell

/-!
# Jumps are exact

The arithmetic of jumps is done on cells and is clamped twice.  Here it is compared with the
integers: a branch in slot `ip` with offset `n` is followed exactly when the integer `ip + n + 1`
is a position of the word, and then to that position (`target_eq`).  Nothing else about words is
needed than that they are shorter than `2^63 - 1` slots, so that the greatest cell, at which sums
that are too large end, is no position.  So clamping never turns a bad jump into a good one, nor a
good one into a bad one (`clamped_exact`).

The check of a word goes through its slots from left to right.  It is the search for the first
slot at fault (`check_eq_raised`), where `slotFault?` says over the integers what a fault is.
-/

namespace Threaded

/-- Fails with an error, if there is one. -/
def Error.raised : Option Error → Except Error Unit
  | none => .ok ()
  | some e => .error e

namespace Jump

/-! ## Where a branch goes -/

/-- The two clamped additions come to one. -/
theorem dest_eq_ofIntClamp {ip : Nat} (hip : ip < 2 ^ 63) (offset : Cell) :
    dest ip offset = Int64.ofIntClamp (ip + offset.toInt + 1) := by
  have hlow := offset.le_toInt
  have hone : (1 : Cell).toInt = 1 := by decide
  apply Int64.toInt.inj
  unfold dest Cell.addClamped
  rw [Cell.toInt_ofIntClamp, Cell.toInt_ofIntClamp, Cell.toInt_ofIntClamp, Cell.toInt_ofCount hip,
    hone]
  -- the inner sum can only leave the range at its upper end, since a position is not negative
  omega

/-- **Jumps are exact**: a branch is followed exactly when the integer it aims at is a position
of the word, and then to that position. -/
theorem target_eq {ip len : Nat} (hip : ip < len) (hlen : len < 2 ^ 63 - 1) (offset : Cell) :
    target ip offset len =
      if 0 ≤ (ip : Int) + offset.toInt + 1 ∧ (ip : Int) + offset.toInt + 1 ≤ len then
        .ok ((ip : Int) + offset.toInt + 1).toNat
      else .error (.jumpOutOfBounds ip (Int64.ofIntClamp (ip + offset.toInt + 1))) := by
  have hdest := dest_eq_ofIntClamp (show ip < 2 ^ 63 by omega) offset
  unfold target
  simp only [hdest]
  have hval := Cell.toInt_ofIntClamp (ip + offset.toInt + 1)
  by_cases h : 0 ≤ (ip : Int) + offset.toInt + 1 ∧ (ip : Int) + offset.toInt + 1 ≤ len
  · have hexact : (Int64.ofIntClamp (ip + offset.toInt + 1)).toInt = ip + offset.toInt + 1 := by
      omega
    rw [if_pos h, hexact, if_pos h]
  · rw [if_neg h, if_neg]
    omega

/-- An offset from one position to another further right depends on their distance alone. -/
theorem offsetTo_add (origin n : Nat) : offsetTo origin (origin + n) = Cell.ofCount n := by
  have h : ((origin + n : Nat) : Int) - origin = n := by omega
  unfold offsetTo Cell.ofCount
  rw [h]

/-- A branch that skips `n` slots and the mark behind them goes on behind the mark. -/
theorem target_ofCount {ip n len : Nat} (h : ip + n < len) (hlen : len < 2 ^ 63 - 1) :
    target ip (Cell.ofCount n) len = .ok (ip + n + 1) := by
  rw [target_eq (by omega) hlen, Cell.toInt_ofCount (by omega), if_pos (by omega)]
  rfl

/-- **A branch that is aimed at a mark comes out behind it**, be the mark in front of the branch or
behind it. -/
theorem toInt_dest_offsetTo {origin mark : Nat} (horigin : origin < 2 ^ 63 - 1)
    (hmark : mark < 2 ^ 63 - 1) : (dest origin (offsetTo origin mark)).toInt = mark + 1 := by
  have hoffset : (offsetTo origin mark).toInt = mark - origin :=
    Int64.toInt_ofInt_of_le (by omega) (by omega)
  rw [dest_eq_ofIntClamp (by omega), hoffset, Cell.toInt_ofIntClamp]
  omega

/-- **Clamping loses nothing.**  Let `n` be the integer that a branch aims at.  The branch is
followed exactly if `n` is a position of the word, and then to `n`; in every other case it is blamed
with the cell that is nearest to `n`.  And the offset from one slot to another leads from the first
to the position behind the second, in both directions. -/
theorem clamped_exact :
    (∀ (ip len : Nat) (offset : Cell) (n : Int), ip < len → len < 2 ^ 63 - 1 →
      n = ip + offset.toInt + 1 →
        (∀ t : Nat, target ip offset len = .ok t ↔ (0 ≤ n ∧ n ≤ len) ∧ t = n) ∧
        (¬(0 ≤ n ∧ n ≤ len) → ∃ d, target ip offset len = .error (.jumpOutOfBounds ip d) ∧
          d.toInt = max (-2 ^ 63) (min (2 ^ 63 - 1) n))) ∧
      ∀ origin mark : Nat, origin < 2 ^ 63 - 1 → mark < 2 ^ 63 - 1 →
        (dest origin (offsetTo origin mark)).toInt = mark + 1 := by
  refine ⟨?_, fun origin mark => toInt_dest_offsetTo⟩
  rintro ip len offset n hip hlen rfl
  rw [target_eq hip hlen]
  constructor
  · intro t
    split
    · next hlands =>
      rw [Except.ok.injEq]
      exact ⟨fun ht => ⟨hlands, by omega⟩, fun ht => by omega⟩
    · next hout => exact ⟨nofun, fun ht => absurd ht.1 hout⟩
  · intro hout
    rw [if_neg hout]
    exact ⟨_, rfl, Cell.toInt_ofIntClamp _⟩

/-- The greatest offset but one, which leads out of the range; the least offset; and a mark in front
of its branch. -/
theorem clamped_exact_ends :
    target 2 1 4 = .ok 4 ∧
      (∃ d, target 3 (Int64.maxValue - 1) 4 = .error (.jumpOutOfBounds 3 d) ∧
        d.toInt = 2 ^ 63 - 1) ∧
      (∃ d, target 0 Int64.minValue 4 = .error (.jumpOutOfBounds 0 d) ∧
        d.toInt = -2 ^ 63 + 1) ∧
      (dest 7 (offsetTo 7 2)).toInt = 3 := by
  obtain ⟨hjumps, hmarks⟩ := clamped_exact
  have hgood := (hjumps 2 4 1 4 (by decide) (by decide) (by decide)).1 4
  have hhigh := (hjumps 3 4 (Int64.maxValue - 1) (2 ^ 63 + 2) (by decide) (by decide) (by decide)).2
  have hlow := (hjumps 0 4 Int64.minValue (-2 ^ 63 + 1) (by decide) (by decide) (by decide)).2
  exact ⟨hgood.2 ⟨by decide, rfl⟩, hhigh (by decide), hlow (by decide),
    hmarks 7 2 (by decide) (by decide)⟩

/-! ## The first slot at fault -/

/-- What is wrong, over the integers, with the reference `r` in slot `ip` of a word of `len`
slots. -/
def slotFault? (d : Dict) (len ip : Nat) (r : Ref) : Option Error :=
  match d.get? r with
  | none => some (.invalidEntry r)
  | some e =>
    match e.offset? with
    | none => none
    | some offset =>
      if 0 ≤ (ip : Int) + offset.toInt + 1 ∧ (ip : Int) + offset.toInt + 1 ≤ len then none
      else some (.jumpOutOfBounds ip (Int64.ofIntClamp (ip + offset.toInt + 1)))

/-- What is wrong with the first slot at fault, if there is one. -/
def firstFault (d : Dict) (body : Array Ref) : Option Error :=
  body.toList.zipIdx.findSome? fun (r, ip) => slotFault? d body.size ip r

/-- The check of one slot finds what is wrong with it over the integers. -/
theorem checkSlot_eq_raised {d : Dict} {len ip : Nat} (hip : ip < len) (hlen : len < 2 ^ 63 - 1)
    (r : Ref) : checkSlot d len ip r = Error.raised (slotFault? d len ip r) := by
  unfold checkSlot slotFault?
  cases d.get? r with
  | none => rfl
  | some e =>
    dsimp only
    cases e.offset? with
    | none => rfl
    | some offset =>
      simp only [target_eq hip hlen]
      split <;> rfl

/-- The check is the search for the first fault. -/
theorem checkFrom_eq_raised (d : Dict) {len : Nat} (hlen : len < 2 ^ 63 - 1) :
    (rs : List Ref) → (ip : Nat) → ip + rs.length = len →
      checkFrom d len ip rs =
        Error.raised ((rs.zipIdx ip).findSome? fun (r, ip) => slotFault? d len ip r)
  | [], _, _ => rfl
  | r :: rs, ip, h => by
    rw [List.length_cons] at h
    rw [checkFrom, checkSlot_eq_raised (by omega) hlen, List.zipIdx_cons, List.findSome?_cons]
    cases hr : slotFault? d len ip r with
    | none =>
      simp only [hr, Error.raised]
      exact checkFrom_eq_raised d hlen rs (ip + 1) (by omega)
    | some e => simp only [hr, Error.raised]

/-- **The check of a word blames its first slot at fault**, and passes a word without one. -/
theorem check_eq_raised (d : Dict) {body : Array Ref} (hlen : body.size < 2 ^ 63 - 1) :
    check d body = Error.raised (firstFault d body) :=
  checkFrom_eq_raised d hlen body.toList 0 (by simp)

/-! ## Words that pass -/

/-- A word passes the check when every slot does. -/
theorem checkFrom_eq_ok_iff {d : Dict} {len : Nat} {rs : List Ref} {ip : Nat} :
    checkFrom d len ip rs = .ok () ↔
      ∀ i r, rs[i]? = some r → checkSlot d len (ip + i) r = .ok () := by
  induction rs generalizing ip with
  | nil => simp [checkFrom]
  | cons s rs ih =>
    rw [checkFrom]
    constructor
    · intro h i r hr
      split at h
      · simp at h
      · next hs =>
        cases i with
        | zero =>
          obtain rfl : s = r := by simpa using hr
          exact hs
        | succ i =>
          have := ih.1 h i r (by simpa using hr)
          rwa [show ip + (i + 1) = ip + 1 + i by omega]
    · intro h
      have hs : checkSlot d len ip s = .ok () := h 0 s rfl
      rw [hs]
      apply ih.2
      intro i r hr
      rw [show ip + 1 + i = ip + (i + 1) by omega]
      exact h (i + 1) r (by simpa using hr)

/-- A word passes the check exactly if each of its slots does. -/
theorem check_eq_ok_iff {d : Dict} {body : Array Ref} :
    check d body = .ok () ↔
      ∀ ip r, body[ip]? = some r → checkSlot d body.size ip r = .ok () := by
  unfold check
  rw [checkFrom_eq_ok_iff]
  simp only [Array.getElem?_toList, Nat.zero_add]

/-- A slot that passes holds a good reference, and if that is a branch it can be followed. -/
theorem checkSlot_eq_ok_iff {d : Dict} {len ip : Nat} {r : Ref} :
    checkSlot d len ip r = .ok () ↔
      ∃ e, d.get? r = some e ∧ ∀ offset, e.offset? = some offset →
        ∃ t, target ip offset len = .ok t := by
  unfold checkSlot
  cases hr : d.get? r with
  | none => simp
  | some e =>
    dsimp only
    cases ho : e.offset? with
    | none => simp [ho]
    | some offset =>
      cases ht : target ip offset len <;> simp [Except.map, ho, ht]

end Jump

end Threaded
