import Threaded.Proofs.Codes
import Threaded.Proofs.Utf8

/-!
# Bytes and text agree

A line that comes as bytes does what the text does whose encoding it is, and bytes that encode no
text do nothing but blame a token (`execBytes_contract`): the first one that is too long if there
is one, and otherwise the first one that is not UTF-8.

Both rest on the same fact: a separator is a byte below `0x80`, so it is never inside a character.
Hence the runs of an encoded text are the encoded runs of the text (`runs_encode`), and a buffer is
well-formed exactly if each of its runs is (`wellFormed_iff_runs`).  The broken run is looked for
by the length of the well-formed beginning of the whole buffer; that the runs which end within it
are the ones in front of the first broken run is `takeWhile_stop_runs`.
-/

namespace Threaded

namespace Line

open Text Text.Utf8

/-! ## Separators -/

variable {b : UInt8} {c : Char}

/-- The bytes that separate are characters. -/
theorem toNat_lt_of_isSeparatorByte (h : isSeparatorByte b = true) : b.toNat < 0x80 := by
  simp only [isSeparatorByte, Bool.or_eq_true, decide_eq_true_eq] at h
  rcases h with rfl | rfl <;> decide

/-- The encoding of a separator is a separator. -/
theorem encodeChar_of_isSeparator (h : isSeparator c = true) :
    ∃ b, isSeparatorByte b = true ∧ String.utf8EncodeChar c = [b] := by
  simp only [isSeparator, Bool.or_eq_true, decide_eq_true_eq] at h
  rcases h with rfl | rfl
  · exact ⟨0x20, rfl, by decide⟩
  · exact ⟨0x00, rfl, by decide⟩

/-- There is no separator in the encoding of any other character. -/
theorem isSeparatorByte_of_mem_encodeChar (hc : isSeparator c = false)
    (hb : b ∈ String.utf8EncodeChar c) : isSeparatorByte b = false := by
  rw [← Bool.not_eq_true]
  intro h
  have hv := toNat_eq_of_mem_encodeChar hb (toNat_lt_of_isSeparatorByte h)
  have hchar : c = Char.ofNat b.toNat := by rw [← hv, c.ofNat_toNat]
  simp only [isSeparatorByte, Bool.or_eq_true, decide_eq_true_eq] at h
  rcases h with rfl | rfl <;> rw [hchar] at hc <;> revert hc <;> decide

/-- No byte of a text without separators separates. -/
theorem isSeparatorByte_of_mem_encode {cs : List Char} (hcs : ∀ c ∈ cs, isSeparator c = false) :
    ∀ b ∈ encode cs, isSeparatorByte b = false := by
  intro b hb
  obtain ⟨c, hc, hb⟩ := List.mem_flatMap.1 hb
  exact isSeparatorByte_of_mem_encodeChar (hcs c hc) hb

/-- Every byte takes one place. -/
@[simp] theorem extent_byteSize (bytes : List UInt8) : extent byteSize bytes = bytes.length := by
  induction bytes with
  | nil => rfl
  | cons b bytes ih => rw [extent_cons, ih, List.length_cons, byteSize, Nat.add_comm]

/-- No byte takes no place. -/
theorem byteSize_pos (b : UInt8) : 0 < byteSize b :=
  Nat.one_pos

/-- A buffer has no more runs than bytes. -/
theorem length_byteRuns_le (bytes : List UInt8) : (byteRuns bytes).length ≤ bytes.length := by
  have h := @two_mul_length_runs_le _ byteSize isSeparatorByte byteSize_pos bytes 0
  rw [extent_byteSize] at h
  unfold byteRuns
  split at h <;> omega

/-! ## The runs of an encoded text -/

/-- A run of characters as a run of bytes. -/
def encodeRun (r : Run Char) : Run UInt8 :=
  ⟨r.pos, encode r.items⟩

/-- A run is as wide in bytes as its characters are. -/
theorem width_encodeRun (r : Run Char) :
    (encodeRun r).width byteSize = r.width Char.utf8Size := by
  rw [Run.width, extent_byteSize, encodeRun, length_encode, Run.width]

/-- **The runs of an encoded text are the encoded runs of the text.** -/
theorem runs_encode (cs : List Char) (pos : Nat) :
    runs byteSize isSeparatorByte pos (encode cs) =
      (runs Char.utf8Size isSeparator pos cs).map encodeRun := by
  induction cs using induction_on_separators isSeparator generalizing pos with
  | last cs hcs =>
    rw [runs_of_not_separator _ _ (isSeparatorByte_of_mem_encode hcs), runs_of_not_separator _ _ hcs]
    by_cases hnil : cs = []
    · rw [hnil]
      rfl
    · rw [if_neg hnil, if_neg (mt encode_eq_nil_iff.1 hnil)]
      rfl
  | cut front c behind hfront hc ih =>
    obtain ⟨b, hb, hcb⟩ := encodeChar_of_isSeparator hc
    have hsize : c.utf8Size = byteSize b := by
      rw [← String.length_utf8EncodeChar, hcb]
      rfl
    rw [encode_append, encode_cons, hcb, List.singleton_append,
      runs_append_separator hb Nat.one_pos, runs_append_separator hc c.utf8Size_pos,
      runs_of_not_separator _ _ (isSeparatorByte_of_mem_encode hfront),
      runs_of_not_separator _ _ hfront, ih, extent_byteSize, length_encode, hsize, List.map_append]
    by_cases hnil : front = []
    · rw [hnil]
      rfl
    · rw [if_neg hnil, if_neg (mt encode_eq_nil_iff.1 hnil)]
      rfl

/-- **The runs of the bytes are the bytes of the runs.** -/
theorem byteRuns_encode (s : String) :
    byteRuns (encode s.toList) = (lineRuns s).map encodeRun :=
  runs_encode s.toList 0

/-! ## Tokens that are too long -/

/-- The first run of a buffer that is longer than `nameLen` bytes. -/
def longRun? (nameLen : Nat) (bytes : List UInt8) : Option (Run UInt8) :=
  (byteRuns bytes).find? fun r => nameLen < r.width byteSize

variable {nameLen : Nat} {bytes : List UInt8}

/-- The run of a text that is too long is found in its bytes. -/
theorem longRun?_encode (nameLen : Nat) (s : String) :
    longRun? nameLen (encode s.toList) = (firstTooLong? nameLen s).map encodeRun := by
  unfold longRun? firstTooLong?
  rw [byteRuns_encode, List.find?_map]
  simp only [Function.comp_def, width_encodeRun]

/-- There is none if all runs fit. -/
theorem longRun?_eq_none_iff :
    longRun? nameLen bytes = none ↔ ∀ r ∈ byteRuns bytes, r.items.length ≤ nameLen := by
  simp only [longRun?, List.find?_eq_none, Run.width, extent_byteSize, decide_eq_true_eq,
    Nat.not_lt]

/-- It is the run that does not fit while all those in front of it do. -/
theorem longRun?_of_first {k : Nat} {r : Run UInt8} (hr : (byteRuns bytes)[k]? = some r)
    (hlong : nameLen < r.items.length)
    (hbefore : ∀ j q, j < k → (byteRuns bytes)[j]? = some q → q.items.length ≤ nameLen) :
    longRun? nameLen bytes = some r := by
  obtain ⟨hk, rfl⟩ := List.getElem?_eq_some_iff.1 hr
  refine List.find?_eq_some_iff_getElem.2 ⟨?_, k, hk, rfl, fun j hj => ?_⟩
  · simpa [Run.width] using hlong
  · have hfit := hbefore j _ hj (List.getElem?_eq_getElem (Nat.lt_trans hj hk))
    simpa [Run.width] using hfit

/-- If every run of the bytes fits, no token is too long. -/
theorem firstTooLong?_eq_none {s : String}
    (h : ∀ r ∈ byteRuns (encode s.toList), r.items.length ≤ nameLen) :
    firstTooLong? nameLen s = none := by
  have hlong := longRun?_encode nameLen s
  rwa [longRun?_eq_none_iff.2 h, eq_comm, Option.map_eq_none_iff] at hlong

/-- The first run that is too long is refused where it grows too long. -/
theorem ofBytes_of_longRun? {r : Run UInt8} (h : longRun? nameLen bytes = some r) :
    ofBytes nameLen bytes = .error (.tokenTooLong (r.pos + nameLen)) := by
  unfold longRun? at h
  simp only [ofBytes, tooLong?, h, Option.map_some]

/-- The offset that is blamed lies in the buffer. -/
theorem offset_lt_of_longRun? {r : Run UInt8} (h : longRun? nameLen bytes = some r) :
    r.pos + nameLen < bytes.length := by
  have hfound := List.find?_some h
  have hlong : nameLen < r.width byteSize := of_decide_eq_true hfound
  have hstop := (stop_le_of_mem_runs (List.mem_of_find?_eq_some h)).2
  rw [extent_byteSize, Run.stop] at hstop
  omega

/-- **The bytes of a text are read as the text**, unless one of its tokens is too long. -/
theorem ofBytes_encode (nameLen : Nat) (s : String) :
    ofBytes nameLen (encode s.toList) =
      match firstTooLong? nameLen s with
      | some r => .error (.tokenTooLong (r.pos + nameLen))
      | none => .ok s := by
  have h := longRun?_encode nameLen s
  cases hs : firstTooLong? nameLen s with
  | some r =>
    rw [hs] at h
    exact ofBytes_of_longRun? h
  | none =>
    rw [hs] at h
    unfold longRun? at h
    have hdecode : decode? (encode s.toList) = some s.toList := decode?_eq_some_iff.2 rfl
    simp only [ofBytes, tooLong?, h, Option.map_none, hdecode, String.ofList_toList]

/-! ## Runs that are not UTF-8 -/

/-- The run that is left over is a text exactly if its items are. -/
theorem forall_mem_run_iff (front : List UInt8) (pos : Nat) :
    (∀ r ∈ if front = [] then [] else [(⟨pos, front⟩ : Run UInt8)], WellFormed r.items) ↔
      WellFormed front := by
  by_cases h : front = []
  · rw [if_pos h, h]
    exact ⟨fun _ => ⟨[], rfl⟩, fun _ _ hr => absurd hr List.not_mem_nil⟩
  · rw [if_neg h, List.forall_mem_singleton]

/-- **A buffer is well-formed exactly if each of its runs is.** -/
theorem wellFormed_iff_runs (bytes : List UInt8) (pos : Nat) :
    WellFormed bytes ↔ ∀ r ∈ runs byteSize isSeparatorByte pos bytes, WellFormed r.items := by
  induction bytes using induction_on_separators isSeparatorByte generalizing pos with
  | last bytes hbytes => rw [runs_of_not_separator _ _ hbytes, forall_mem_run_iff]
  | cut front b behind hfront hb ih =>
    rw [wellFormed_append_cons_iff (toNat_lt_of_isSeparatorByte hb),
      runs_append_separator hb Nat.one_pos, runs_of_not_separator _ _ hfront,
      List.forall_mem_append, forall_mem_run_iff, ← ih]

/-- **The runs that end in the well-formed beginning** are the well-formed runs in front of the
first that is not. -/
theorem takeWhile_stop_runs (bytes : List UInt8) (pos : Nat) :
    ((runs byteSize isSeparatorByte pos bytes).takeWhile fun r =>
        r.stop byteSize ≤ pos + validLength bytes) =
      (runs byteSize isSeparatorByte pos bytes).takeWhile fun r => WellFormed r.items := by
  induction bytes using induction_on_separators isSeparatorByte generalizing pos with
  | last bytes hbytes =>
    rw [runs_of_not_separator _ _ hbytes]
    by_cases hnil : bytes = []
    · rw [if_pos hnil]
      rfl
    · have hiff : pos + bytes.length ≤ pos + validLength bytes ↔ WellFormed bytes := by
        have hle := validLength_le_length bytes
        rw [← validLength_eq_length_iff]
        omega
      simp only [if_neg hnil, List.takeWhile_cons, List.takeWhile_nil, Run.stop, Run.width,
        extent_byteSize, hiff]
  | cut front b behind hfront hb ih =>
    have hlow := toNat_lt_of_isSeparatorByte hb
    rw [runs_append_separator hb Nat.one_pos, runs_of_not_separator _ _ hfront, extent_byteSize]
    by_cases hwell : WellFormed front
    · have hvalid : pos + validLength (front ++ b :: behind) =
          pos + front.length + byteSize b + validLength behind := by
        rw [validLength_append_cons_of_wellFormed hlow hwell, byteSize]
        omega
      rw [hvalid]
      by_cases hnil : front = []
      · rw [if_pos hnil, List.nil_append, ih]
      · rw [if_neg hnil, List.singleton_append, List.takeWhile_cons_of_pos, ih,
          List.takeWhile_cons_of_pos (by simpa using hwell)]
        simp only [Run.stop, Run.width, extent_byteSize, decide_eq_true_eq]
        omega
    · have hnil : front ≠ [] := by
        rintro rfl
        exact hwell ⟨[], rfl⟩
      have hlt : validLength (front ++ b :: behind) < front.length :=
        validLength_append_cons_lt hlow hwell
      rw [if_neg hnil, List.singleton_append, List.takeWhile_cons_of_neg,
        List.takeWhile_cons_of_neg (by simpa using hwell)]
      simp only [Run.stop, Run.width, extent_byteSize, decide_eq_true_eq]
      omega

/-- The run `k` is the first of a buffer that is not UTF-8. -/
structure FirstBroken (bytes : List UInt8) (k : Nat) (r : Run UInt8) : Prop where
  get : (byteRuns bytes)[k]? = some r
  broken : ¬ WellFormed r.items
  least : ∀ j q, j < k → (byteRuns bytes)[j]? = some q → WellFormed q.items

variable {k : Nat} {r : Run UInt8}

/-- The broken run is one of the runs. -/
theorem FirstBroken.lt_length (h : FirstBroken bytes k r) : k < (byteRuns bytes).length :=
  (List.getElem?_eq_some_iff.1 h.get).1

/-- As many runs are well-formed in a row as its index says. -/
theorem FirstBroken.findIdx_eq (h : FirstBroken bytes k r) :
    ((byteRuns bytes).findIdx fun q => !decide (WellFormed q.items)) = k := by
  obtain ⟨hlt, hr⟩ := List.getElem?_eq_some_iff.1 h.get
  rw [List.findIdx_eq hlt]
  refine ⟨?_, ?_⟩
  · rw [hr]
    simpa using h.broken
  · intro j hj
    simpa using h.least j _ hj (List.getElem?_eq_getElem (Nat.lt_trans hj hlt))

/-- A buffer that is not UTF-8 has a first run that is not. -/
theorem exists_firstBroken (h : ¬ WellFormed bytes) : ∃ k r, FirstBroken bytes k r := by
  have hlt : ((byteRuns bytes).findIdx fun q => !decide (WellFormed q.items)) <
      (byteRuns bytes).length := by
    apply Nat.lt_of_le_of_ne List.findIdx_le_length
    intro heq
    have hall : ∀ q ∈ byteRuns bytes, WellFormed q.items := by
      simpa using List.findIdx_eq_length.1 heq
    exact h ((wellFormed_iff_runs bytes 0).2 hall)
  refine ⟨_, _, List.getElem?_eq_getElem hlt, ?_, ?_⟩
  · simpa using List.findIdx_getElem (w := hlt)
  · intro j q hj hq
    obtain ⟨_, rfl⟩ := List.getElem?_eq_some_iff.1 hq
    simpa using List.not_of_lt_findIdx hj

/-- **The length of the well-formed beginning finds the first broken run**: as many runs end in it
as there are in front of that. -/
theorem FirstBroken.length_takeWhile (h : FirstBroken bytes k r) :
    ((byteRuns bytes).takeWhile fun q => q.stop byteSize ≤ validLength bytes).length = k := by
  have htake := takeWhile_stop_runs bytes 0
  rw [Nat.zero_add] at htake
  rw [byteRuns, htake, ← byteRuns, List.takeWhile_eq_take_findIdx_not, h.findIdx_eq,
    List.length_take, Nat.min_eq_left (Nat.le_of_lt h.lt_length)]

/-- The bytes of the first broken run are named. -/
theorem FirstBroken.malformed_eq (h : FirstBroken bytes k r) :
    malformed bytes (byteRuns bytes) =
      .unresolvedSymbol k (String.ofList (decodeLossy r.items)) := by
  simp only [malformed, h.length_takeWhile, h.get]

/-- Where all runs fit, the first broken one is refused by its index and its lossy text. -/
theorem ofBytes_of_firstBroken (hfit : longRun? nameLen bytes = none)
    (h : FirstBroken bytes k r) :
    ofBytes nameLen bytes = .error (.unresolvedSymbol k (String.ofList (decodeLossy r.items))) := by
  have hdecode : decode? bytes = none := by
    rw [decode?_eq_none_iff, wellFormed_iff_runs bytes 0]
    exact fun hall => h.broken (hall r (List.mem_of_getElem? h.get))
  unfold longRun? at hfit
  simp only [ofBytes, tooLong?, hfit, Option.map_none, hdecode, h.malformed_eq]

end Line

namespace Machine

open Text.Utf8

/-! ## Executing bytes -/

/-- The bytes of a text are executed as the text is. -/
theorem execBytes_encode (m : Machine) (fuel : Nat) (s : String) :
    m.execBytes fuel (encode s.toList) = m.exec fuel s := by
  unfold execBytes
  rw [Line.ofBytes_encode]
  cases hlong : firstTooLong? m.limits.nameLen s with
  | some r =>
    have hcompile := compile_eq m s
    rw [hlong] at hcompile
    simp only [exec, hcompile]
  | none => rfl

/-- What executing bytes comes to. -/
structure BytesContract (m : Machine) : Prop where
  /-- The bytes of a text give what the text gives: the result and the machine. -/
  text : ∀ (s : String) fuel, m.execBytes fuel s.toUTF8.data.toList = m.exec fuel s
  /-- If a token is too long, its first byte too many is blamed, and nothing has happened. -/
  tooLong : ∀ bytes r, bytes.length < 2 ^ 63 → Line.longRun? m.limits.nameLen bytes = some r →
    ∃ n : Cell, n.toInt = (r.pos + m.limits.nameLen : Nat) ∧
      ∀ fuel, m.execBytes fuel bytes = some (.ok n, m)
  /-- Otherwise, if the bytes are no text, the first token that is not UTF-8 is blamed, and nothing
  has happened. -/
  broken : ∀ bytes, bytes.length < 2 ^ 63 → ¬ WellFormed bytes →
    Line.longRun? m.limits.nameLen bytes = none →
    ∃ k r, Line.FirstBroken bytes k r ∧ ∃ n : Cell, n.toInt = -((k : Int) + 1) ∧
      ∀ fuel, m.execBytes fuel bytes = some (.ok n, m)

/-- **Bytes and text agree**: bytes that encode a text do what the text does, and all others blame
a token and leave the machine as it is. -/
theorem execBytes_contract (m : Machine) : BytesContract m where
  text s fuel := by
    rw [← encode_toList]
    exact m.execBytes_encode fuel s
  tooLong bytes r hbytes hr := by
    have hlt := Line.offset_lt_of_longRun? hr
    refine ⟨Cell.ofCount (r.pos + m.limits.nameLen), Cell.toInt_ofCount (by omega), ?_⟩
    intro fuel
    rw [execBytes, Line.ofBytes_of_longRun? hr]
    rfl
  broken bytes hbytes hbroken hfit := by
    obtain ⟨k, r, hk⟩ := Line.exists_firstBroken hbroken
    have hlt := hk.lt_length
    have hcount : (Line.byteRuns bytes).length ≤ bytes.length := Line.length_byteRuns_le bytes
    refine ⟨k, r, hk, Error.indexCode k, Error.toInt_indexCode (by omega), ?_⟩
    intro fuel
    rw [execBytes, Line.ofBytes_of_firstBroken hfit hk]
    rfl

/-- A lead byte that a blank cuts off is blamed on the second of three tokens; a token too long is
blamed although the one in front of it is not UTF-8. -/
theorem execBytes_contract_blamed :
    (boot {}).execBytes 0 [0x31, 0x20, 0xC3, 0x20, 0x32] = some (.ok (-2), boot {}) ∧
      (boot ⟨2, 1, 2⟩).execBytes 0 [0xFF, 0x20, 0x31, 0x32] = some (.ok 3, boot ⟨2, 1, 2⟩) := by
  refine ⟨?_, ?_⟩
  · obtain ⟨k, r, hk, n, hn, hexec⟩ := (execBytes_contract (boot {})).broken
      [0x31, 0x20, 0xC3, 0x20, 0x32] (by decide) (by decide) (by decide)
    obtain rfl : 1 = k := Eq.trans (by decide) hk.findIdx_eq
    obtain rfl : n = -2 := Int64.toInt.inj hn
    exact hexec 0
  · obtain ⟨n, hn, hexec⟩ := (execBytes_contract (boot ⟨2, 1, 2⟩)).tooLong
      [0xFF, 0x20, 0x31, 0x32] ⟨2, [0x31, 0x32]⟩ (by decide) (by decide)
    obtain rfl : n = 3 := Int64.toInt.inj hn
    exact hexec 0

end Machine

end Threaded
