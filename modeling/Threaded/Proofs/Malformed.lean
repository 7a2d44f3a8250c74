import Threaded.Proofs.Bytes
import Threaded.Proofs.Maximal

/-!
# Where bytes are blamed

A line of bytes is refused at its first run that is too long.  If all runs fit and it is not UTF-8,
it is refused at the first run that, taken alone, is not UTF-8 (`bytes_located`).  That run is found
without a look at the runs one by one: it is the one in which the longest well-formed beginning of
the buffer ends, and there always is one, since a separator is well-formed by itself.
-/

namespace Threaded

open Text Text.Utf8

namespace Line

/-! ## The first broken run -/

variable {nameLen : Nat} {bytes : List UInt8} {k : Nat} {r : Run UInt8}

/-- A run of a buffer stands between what is in front of it and what is behind it. -/
theorem between_of_mem_byteRuns (h : r ∈ byteRuns bytes) :
    ∃ front behind, bytes = front ++ (r.items ++ behind) ∧ r.pos = front.length ∧
      byteRuns bytes =
        byteRuns front ++ r :: runs byteSize isSeparatorByte (r.stop byteSize) behind := by
  obtain ⟨front, behind, hbetween⟩ := maximal_of_mem_runs byteSize_pos h
  refine ⟨front, behind, hbetween.split, ?_, hbetween.runs_eq byteSize_pos⟩
  rw [hbetween.pos, extent_byteSize, Nat.zero_add]

/-- A run is behind all that stands in front of it. -/
theorem not_mem_byteRuns_of_pos {front : List UInt8} (hpos : r.pos = front.length) :
    r ∉ byteRuns front := by
  intro h
  obtain ⟨hne, _⟩ := items_of_mem_runs h
  have hstop := (stop_le_of_mem_runs h).2
  have hlength := List.length_pos_of_ne_nil hne
  rw [extent_byteSize, Run.stop, Run.width, extent_byteSize] at hstop
  omega

/-- **What is in front of the first broken run is well-formed.** -/
theorem FirstBroken.pos_le (h : FirstBroken bytes k r) : r.pos ≤ validLength bytes := by
  obtain ⟨front, behind, hsplit, hpos, hruns⟩ :=
    between_of_mem_byteRuns (List.mem_of_getElem? h.get)
  have hfront : WellFormed front := by
    refine (wellFormed_iff_runs front 0).2 fun q hq => ?_
    obtain ⟨j, hj⟩ := List.mem_iff_getElem?.1 hq
    obtain ⟨hlt, _⟩ := List.getElem?_eq_some_iff.1 hj
    have hget : ∀ {i : Nat}, i < (byteRuns front).length →
        (byteRuns bytes)[i]? = (byteRuns front)[i]? := by
      intro i hi
      rw [hruns, List.getElem?_append_left hi]
    apply h.least j q ?_ ((hget hlt).trans hj)
    -- or else the broken run would be one of those in front of itself
    apply Nat.lt_of_not_le
    intro hle
    have hr := (hget (Nat.lt_of_le_of_lt hle hlt)).symm.trans h.get
    exact not_mem_byteRuns_of_pos hpos (List.mem_of_getElem? hr)
  obtain ⟨cs, rfl⟩ := hfront
  rw [hpos, hsplit, validLength_encode_append]
  exact Nat.le_add_right _ _

/-- **The first broken run is not in the well-formed beginning** as a whole. -/
theorem FirstBroken.lt_stop (h : FirstBroken bytes k r) : validLength bytes < r.stop byteSize := by
  have hlength := h.length_takeWhile
  have hsplit := List.takeWhile_append_dropWhile
    (p := fun q : Run UInt8 => decide (q.stop byteSize ≤ validLength bytes)) (l := byteRuns bytes)
  have hhead := List.head?_dropWhile_not
    (fun q : Run UInt8 => decide (q.stop byteSize ≤ validLength bytes)) (byteRuns bytes)
  have hget := h.get
  rw [← hsplit, List.getElem?_append_right (Nat.le_of_eq hlength), hlength, Nat.sub_self,
    ← List.head?_eq_getElem?] at hget
  rw [hget] at hhead
  simpa using hhead

/-! ## The theorem -/

/-- How a buffer is read that has these maximal runs. -/
structure Located (nameLen : Nat) (bytes : List UInt8) (rs : List (Run UInt8)) : Prop where
  /-- The first run that is too long is blamed, whatever is in front of it. -/
  tooLong : ∀ (k : Nat) (r : Run UInt8), rs[k]? = some r → nameLen < r.items.length →
    (∀ (j : Nat) (q : Run UInt8), j < k → rs[j]? = some q → q.items.length ≤ nameLen) →
      ofBytes nameLen bytes = .error (.tokenTooLong (r.pos + nameLen))
  /-- If there is none, a buffer that is UTF-8 is read as the text that it is. -/
  text : (∀ r ∈ rs, r.items.length ≤ nameLen) → WellFormed bytes →
    ∃ s : String, ofBytes nameLen bytes = .ok s ∧ s.toUTF8.data.toList = bytes
  /-- In any other buffer there is a first run that is not UTF-8.  The well-formed beginning ends in
  it; as many runs end before that as there are in front of it; and if no run is too long it is
  blamed, under the name that a lossy reading of its bytes gives. -/
  broken : ¬ WellFormed bytes → ∃ (k : Nat) (r : Run UInt8), rs[k]? = some r ∧
    ¬ WellFormed r.items ∧
    (∀ (j : Nat) (q : Run UInt8), j < k → rs[j]? = some q → WellFormed q.items) ∧
    (r.pos ≤ validLength bytes ∧ validLength bytes < r.pos + r.items.length) ∧
    (rs.takeWhile fun q => q.stop byteSize ≤ validLength bytes).length = k ∧
    ((∀ q ∈ rs, q.items.length ≤ nameLen) → ofBytes nameLen bytes =
      .error (.unresolvedSymbol k (String.ofList (decodeLossy r.items))))
  /-- A buffer is UTF-8 exactly if each of its runs is. -/
  wellFormed_iff : WellFormed bytes ↔ ∀ r ∈ rs, WellFormed r.items
  /-- The well-formed beginning is the longest that is well-formed. -/
  longest : WellFormed (bytes.take (validLength bytes)) ∧
    ∀ n, n ≤ bytes.length → WellFormed (bytes.take n) → n ≤ validLength bytes

/-- A buffer is read by its runs. -/
theorem located (nameLen : Nat) (bytes : List UInt8) : Located nameLen bytes (byteRuns bytes) where
  tooLong _ _ hr hlong hbefore := ofBytes_of_longRun? (longRun?_of_first hr hlong hbefore)
  text := by
    rintro hfit ⟨cs, rfl⟩
    have hread := ofBytes_encode nameLen (String.ofList cs)
    rw [firstTooLong?_eq_none (by rwa [String.toList_ofList]), String.toList_ofList] at hread
    exact ⟨String.ofList cs, hread, by rw [← encode_toList, String.toList_ofList]⟩
  broken hbroken := by
    obtain ⟨k, r, h⟩ := exists_firstBroken hbroken
    have hstop := h.lt_stop
    rw [Run.stop, Run.width, extent_byteSize] at hstop
    exact ⟨k, r, h.get, h.broken, h.least, ⟨h.pos_le, hstop⟩, h.length_takeWhile,
      fun hfit => ofBytes_of_firstBroken (longRun?_eq_none_iff.2 hfit) h⟩
  wellFormed_iff := wellFormed_iff_runs bytes 0
  longest := longest_validLength bytes

/-- **Where bytes are blamed.**  A buffer has one list of maximal runs between spaces and NULs, and
by these it is read or blamed, whatever the longest name. -/
theorem bytes_located (nameLen : Nat) (bytes : List UInt8) :
    ∃ rs, (∀ rs', MaximalRuns byteSize isSeparatorByte 0 bytes rs' ↔ rs' = rs) ∧
      Located nameLen bytes rs :=
  ⟨byteRuns bytes, fun _ => maximalRuns_iff byteSize_pos, located nameLen bytes⟩

end Line

end Threaded
