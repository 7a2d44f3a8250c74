import Mathlib.Tactic.SplitIfs
import Threaded.Text.Cut
import Threaded.Text.Utf8

/-!
# UTF-8 is read as it is written

The pieces of an encoded text are its characters, whatever stands behind it (`pieces_encode`), and
whatever is read as a character is the encoding of that character (`exists_of_pieces_eq_cons`).  So
the texts and the well-formed sequences are the same thing (`decode?_eq_some_iff`), and the length
of the well-formed beginning is that of a text (`exists_encode_validLength`).

Between two bytes of a character the reader holds what it still takes to **close** it.  All that is
numeric about the encoding is in the two lemmas on a whole character, `closes_of_encode` and
`encode_of_closes`: a lead byte and the bytes that close it are the encoding of one character.
-/

namespace Threaded.Text.Utf8

/-! ## One byte -/

/-- What is pending after one more byte of a character that owes others behind it. -/
def Pending.push (p : Pending) (b : UInt8) : Pending :=
  ⟨p.owed - 1, 0x80, 0xBF, p.bits * 0x40 + (b.toNat - 0x80)⟩

/-- The byte goes on with a pending character. -/
def Pending.Takes (p : Pending) (b : UInt8) : Prop :=
  p.low ≤ b.toNat ∧ b.toNat ≤ p.high

instance (p : Pending) (b : UInt8) : Decidable (p.Takes b) :=
  inferInstanceAs (Decidable (_ ∧ _))

/-- The bytes complete a pending character. -/
inductive Pending.Closes : Pending → List UInt8 → Char → Prop
  | last {p : Pending} {b : UInt8} (hb : p.Takes b) (howed : p.owed ≤ 1) :
    Closes p [b] (Char.ofNat (p.bits * 0x40 + (b.toNat - 0x80)))
  | more {p : Pending} {b : UInt8} {bs : List UInt8} {c : Char} (hb : p.Takes b)
    (howed : ¬ p.owed ≤ 1) (h : Closes (p.push b) bs c) : Closes p (b :: bs) c

variable {p : Pending} {b : UInt8} {bs tail : List UInt8} {c : Char} {ps : List Piece}

/-- A byte inside a character completes it, goes on with it, or breaks it off and is read again. -/
theorem piecesFrom_some_cons (p : Pending) (b : UInt8) (bs : List UInt8) :
    piecesFrom (some p) (b :: bs) =
      if p.Takes b then
        if p.owed ≤ 1 then some (Char.ofNat (p.bits * 0x40 + (b.toNat - 0x80))) :: pieces bs
        else piecesFrom (some (p.push b)) bs
      else none :: piecesFrom none (b :: bs) := by
  by_cases hb : p.low ≤ b.toNat ∧ b.toNat ≤ p.high
  · rw [if_pos (show p.Takes b from hb)]
    simp only [piecesFrom, step, if_pos hb]
    split <;> rfl
  · rw [if_neg (show ¬ p.Takes b from hb)]
    simp only [piecesFrom, step, if_neg hb]
    rfl

/-- A byte below `0x80` is a character. -/
theorem pieces_ascii (h : b.toNat < 0x80) (bs : List UInt8) :
    pieces (b :: bs) = some (Char.ofNat b.toNat) :: pieces bs := by
  simp only [pieces, piecesFrom, step, start, if_pos h]
  rfl

/-- A byte that begins something is owed the rest of it. -/
theorem pieces_lead (hb : 0x80 ≤ b.toNat) (h : lead b.toNat = some p) (bs : List UInt8) :
    pieces (b :: bs) = piecesFrom (some p) bs := by
  simp only [pieces, piecesFrom, step, start, if_neg (Nat.not_lt.2 hb), h]
  rfl

/-- A byte that can begin nothing is a bad piece. -/
theorem pieces_refused (hb : 0x80 ≤ b.toNat) (h : lead b.toNat = none) (bs : List UInt8) :
    pieces (b :: bs) = none :: pieces bs := by
  simp only [pieces, piecesFrom, step, start, if_neg (Nat.not_lt.2 hb), h]
  rfl

/-- The bytes that close a character are read as it. -/
theorem Pending.Closes.piecesFrom (h : p.Closes tail c) (bs : List UInt8) :
    Utf8.piecesFrom (some p) (tail ++ bs) = some c :: pieces bs := by
  induction h with
  | last hb howed =>
    rw [List.singleton_append, piecesFrom_some_cons, if_pos hb, if_pos howed]
  | more hb howed _ ih => rw [List.cons_append, piecesFrom_some_cons, if_pos hb, if_neg howed, ih]

/-- What is read as the end of a pending character closes it. -/
theorem closes_of_piecesFrom (h : piecesFrom (some p) bs = some c :: ps) :
    ∃ tail rest, bs = tail ++ rest ∧ p.Closes tail c ∧ pieces rest = ps := by
  induction bs generalizing p with
  | nil => simp [piecesFrom] at h
  | cons b bs ih =>
    rw [piecesFrom_some_cons] at h
    by_cases hb : p.Takes b
    · rw [if_pos hb] at h
      by_cases howed : p.owed ≤ 1
      · rw [if_pos howed] at h
        obtain ⟨hc, hps⟩ := List.cons_eq_cons.1 h
        obtain rfl := Option.some.inj hc
        exact ⟨[b], bs, rfl, .last hb howed, hps⟩
      · rw [if_neg howed] at h
        obtain ⟨tail, rest, rfl, htail, hrest⟩ := ih h
        exact ⟨b :: tail, rest, rfl, .more hb howed htail, hrest⟩
    · simp [if_neg hb] at h

/-- A pending character comes to a piece, whatever follows. -/
theorem piecesFrom_some_ne_nil (p : Pending) (bs : List UInt8) : piecesFrom (some p) bs ≠ [] := by
  induction bs generalizing p with
  | nil => simp [piecesFrom]
  | cons b bs ih =>
    rw [piecesFrom_some_cons]
    split
    · split
      · simp
      · exact ih _
    · simp

/-- Bytes have at least one piece. -/
@[simp] theorem pieces_eq_nil_iff : pieces bs = [] ↔ bs = [] := by
  constructor
  · intro h
    cases bs with
    | nil => rfl
    | cons b bs =>
      by_cases hb : b.toNat < 0x80
      · simp [pieces_ascii hb] at h
      · cases hl : lead b.toNat with
        | none => simp [pieces_refused (Nat.not_lt.1 hb) hl] at h
        | some p =>
          rw [pieces_lead (Nat.not_lt.1 hb) hl] at h
          exact absurd h (piecesFrom_some_ne_nil p bs)
  · rintro rfl
    rfl

/-! ## One character -/

/-- The lead bytes, by how many bytes they announce. -/
theorem lead_eq_some_iff (n : Nat) (p : Pending) :
    lead n = some p ↔
      (0xC2 ≤ n ∧ n ≤ 0xDF ∧ p = ⟨1, 0x80, 0xBF, n - 0xC0⟩) ∨
      (0xE0 ≤ n ∧ n ≤ 0xEF ∧
        p = ⟨2, if n = 0xE0 then 0xA0 else 0x80, if n = 0xED then 0x9F else 0xBF, n - 0xE0⟩) ∨
      (0xF0 ≤ n ∧ n ≤ 0xF4 ∧
        p = ⟨3, if n = 0xF0 then 0x90 else 0x80, if n = 0xF4 then 0x8F else 0xBF, n - 0xF0⟩) := by
  grind [lead]

/-- A code point is no surrogate and at most `0x10FFFF`. -/
theorem toNat_valid (c : Char) : c.toNat < 0xD800 ∨ 0xDFFF < c.toNat ∧ c.toNat < 0x110000 :=
  c.valid

/-- A number that can be a code point is the one of its character. -/
theorem toNat_ofNat {n : Nat} (h : n < 0xD800 ∨ 0xDFFF < n ∧ n < 0x110000) :
    (Char.ofNat n).toNat = n := by
  rw [Char.ofNat, dif_pos h]
  rfl

/-- A number below `0x100` is that of its byte. -/
theorem toNat_byte {n : Nat} (h : n < 0x100) : (UInt8.ofNat n).toNat = n :=
  UInt8.toNat_ofNat_of_lt' h

/-- A byte is the one of its number. -/
theorem ofNat_eq {n : Nat} (h : n = b.toNat) : UInt8.ofNat n = b := by
  rw [h, UInt8.ofNat_toNat]

/-- A character by its code point: how many bytes it has, and which. -/
theorem encodeChar_cases (c : Char) :
    (c.toNat < 0x80 ∧ String.utf8EncodeChar c = [UInt8.ofNat c.toNat]) ∨
    (0x80 ≤ c.toNat ∧ c.toNat < 0x800 ∧ String.utf8EncodeChar c =
      [UInt8.ofNat (c.toNat / 64 + 0xC0), UInt8.ofNat (c.toNat % 64 + 0x80)]) ∨
    (0x800 ≤ c.toNat ∧ c.toNat < 0x10000 ∧ String.utf8EncodeChar c =
      [UInt8.ofNat (c.toNat / 4096 + 0xE0), UInt8.ofNat (c.toNat / 64 % 64 + 0x80),
        UInt8.ofNat (c.toNat % 64 + 0x80)]) ∨
    (0x10000 ≤ c.toNat ∧ String.utf8EncodeChar c =
      [UInt8.ofNat (c.toNat / 262144 + 0xF0), UInt8.ofNat (c.toNat / 4096 % 64 + 0x80),
        UInt8.ofNat (c.toNat / 64 % 64 + 0x80), UInt8.ofNat (c.toNat % 64 + 0x80)]) := by
  have hvalid := toNat_valid c
  have hc : c.val.toNat = c.toNat := rfl
  unfold String.utf8EncodeChar
  simp only [hc]
  by_cases h₁ : c.toNat ≤ 127
  · rw [if_pos h₁]
    exact .inl ⟨by omega, rfl⟩
  · rw [if_neg h₁]
    by_cases h₂ : c.toNat ≤ 2047
    · rw [if_pos h₂, Nat.mod_eq_of_lt (show c.toNat / 64 < 32 by omega)]
      exact .inr (.inl ⟨by omega, by omega, rfl⟩)
    · rw [if_neg h₂]
      by_cases h₃ : c.toNat ≤ 65535
      · rw [if_pos h₃, Nat.mod_eq_of_lt (show c.toNat / 4096 < 16 by omega)]
        exact .inr (.inr (.inl ⟨by omega, by omega, rfl⟩))
      · rw [if_neg h₃, Nat.mod_eq_of_lt (show c.toNat / 262144 < 8 by omega)]
        exact .inr (.inr (.inr ⟨by omega, rfl⟩))

/-- A character that owes one byte is closed by a byte in its range. -/
theorem closes_one_iff {low high bits : Nat} :
    Pending.Closes ⟨1, low, high, bits⟩ tail c ↔
      ∃ b, tail = [b] ∧ low ≤ b.toNat ∧ b.toNat ≤ high ∧
        c = Char.ofNat (bits * 0x40 + (b.toNat - 0x80)) := by
  constructor
  · intro h
    cases h with
    | last hb _ => exact ⟨_, rfl, hb.1, hb.2, rfl⟩
    | more _ howed _ => exact absurd (Nat.le_refl 1) howed
  · rintro ⟨b, rfl, hlow, hhigh, hc⟩
    rw [hc]
    exact .last ⟨hlow, hhigh⟩ (Nat.le_refl 1)

/-- A character that owes more bytes takes one in its range, and is then closed by the others. -/
theorem closes_succ_iff {owed low high bits : Nat} :
    Pending.Closes ⟨owed + 2, low, high, bits⟩ tail c ↔
      ∃ b bs, tail = b :: bs ∧ low ≤ b.toNat ∧ b.toNat ≤ high ∧
        Pending.Closes ⟨owed + 1, 0x80, 0xBF, bits * 0x40 + (b.toNat - 0x80)⟩ bs c := by
  have howed : ¬ owed + 2 ≤ 1 := by omega
  constructor
  · intro h
    cases h with
    | last _ h => exact absurd h howed
    | more hb _ h => exact ⟨_, _, rfl, hb.1, hb.2, h⟩
  · rintro ⟨b, bs, rfl, hlow, hhigh, h⟩
    exact .more ⟨hlow, hhigh⟩ howed h

/-- Two bytes are the encoding of the character that they are read as. -/
theorem encodeChar_of_two {b₁ : UInt8} (hb : 0xC2 ≤ b.toNat ∧ b.toNat ≤ 0xDF)
    (h₁ : 0x80 ≤ b₁.toNat ∧ b₁.toNat ≤ 0xBF)
    (hc : c = Char.ofNat ((b.toNat - 0xC0) * 0x40 + (b₁.toNat - 0x80))) :
    String.utf8EncodeChar c = [b, b₁] := by
  have hv : c.toNat = (b.toNat - 0xC0) * 0x40 + (b₁.toNat - 0x80) := by
    rw [hc]
    exact toNat_ofNat (by omega)
  rcases encodeChar_cases c with ⟨h, _⟩ | ⟨_, _, h⟩ | ⟨h, _⟩ | ⟨h, _⟩
  · omega
  · rw [h, ofNat_eq (b := b) (by omega), ofNat_eq (b := b₁) (by omega)]
  · omega
  · omega

/-- Three bytes are the encoding of the character that they are read as, if two would not do and it
is no surrogate. -/
theorem encodeChar_of_three {b₁ b₂ : UInt8} (hb : 0xE0 ≤ b.toNat ∧ b.toNat ≤ 0xEF)
    (h₁ : 0x80 ≤ b₁.toNat ∧ b₁.toNat ≤ 0xBF) (h₂ : 0x80 ≤ b₂.toNat ∧ b₂.toNat ≤ 0xBF)
    (hlong : b.toNat = 0xE0 → 0xA0 ≤ b₁.toNat) (hsurrogate : b.toNat = 0xED → b₁.toNat ≤ 0x9F)
    (hc : c = Char.ofNat
      (((b.toNat - 0xE0) * 0x40 + (b₁.toNat - 0x80)) * 0x40 + (b₂.toNat - 0x80))) :
    String.utf8EncodeChar c = [b, b₁, b₂] := by
  have hv : c.toNat =
      ((b.toNat - 0xE0) * 0x40 + (b₁.toNat - 0x80)) * 0x40 + (b₂.toNat - 0x80) := by
    rw [hc]
    exact toNat_ofNat (by omega)
  rcases encodeChar_cases c with ⟨h, _⟩ | ⟨_, h, _⟩ | ⟨_, _, h⟩ | ⟨h, _⟩
  · omega
  · omega
  · rw [h, ofNat_eq (b := b) (by omega), ofNat_eq (b := b₁) (by omega),
      ofNat_eq (b := b₂) (by omega)]
  · omega

/-- Four bytes are the encoding of the character that they are read as, if three would not do and
it is not past the last one. -/
theorem encodeChar_of_four {b₁ b₂ b₃ : UInt8} (hb : 0xF0 ≤ b.toNat ∧ b.toNat ≤ 0xF4)
    (h₁ : 0x80 ≤ b₁.toNat ∧ b₁.toNat ≤ 0xBF) (h₂ : 0x80 ≤ b₂.toNat ∧ b₂.toNat ≤ 0xBF)
    (h₃ : 0x80 ≤ b₃.toNat ∧ b₃.toNat ≤ 0xBF)
    (hlong : b.toNat = 0xF0 → 0x90 ≤ b₁.toNat) (hlast : b.toNat = 0xF4 → b₁.toNat ≤ 0x8F)
    (hc : c = Char.ofNat
      ((((b.toNat - 0xF0) * 0x40 + (b₁.toNat - 0x80)) * 0x40 + (b₂.toNat - 0x80)) * 0x40
        + (b₃.toNat - 0x80))) :
    String.utf8EncodeChar c = [b, b₁, b₂, b₃] := by
  have hv : c.toNat =
      (((b.toNat - 0xF0) * 0x40 + (b₁.toNat - 0x80)) * 0x40 + (b₂.toNat - 0x80)) * 0x40
        + (b₃.toNat - 0x80) := by
    rw [hc]
    exact toNat_ofNat (by omega)
  rcases encodeChar_cases c with ⟨h, _⟩ | ⟨_, h, _⟩ | ⟨_, h, _⟩ | ⟨_, h⟩
  · omega
  · omega
  · omega
  · rw [h, ofNat_eq (b := b) (by omega), ofNat_eq (b := b₁) (by omega),
      ofNat_eq (b := b₂) (by omega), ofNat_eq (b := b₃) (by omega)]

/-- A lead byte and the bytes that close it are the encoding of the character. -/
theorem encode_of_closes (hlead : lead b.toNat = some p) (h : p.Closes tail c) :
    String.utf8EncodeChar c = b :: tail := by
  rw [lead_eq_some_iff] at hlead
  rcases hlead with ⟨hlow, hhigh, rfl⟩ | ⟨hlow, hhigh, rfl⟩ | ⟨hlow, hhigh, rfl⟩
  · obtain ⟨b₁, rfl, h₁, h₁', hc⟩ := closes_one_iff.1 h
    exact encodeChar_of_two ⟨hlow, hhigh⟩ ⟨h₁, h₁'⟩ hc
  · obtain ⟨b₁, _, rfl, h₁, h₁', h⟩ := closes_succ_iff.1 h
    obtain ⟨b₂, rfl, h₂, h₂', hc⟩ := closes_one_iff.1 h
    refine encodeChar_of_three ⟨hlow, hhigh⟩ ?_ ⟨h₂, h₂'⟩ ?_ ?_ hc
    · split_ifs at h₁ h₁' <;> omega
    · intro hb
      rwa [if_pos hb] at h₁
    · intro hb
      rwa [if_pos hb] at h₁'
  · obtain ⟨b₁, _, rfl, h₁, h₁', h⟩ := closes_succ_iff.1 h
    obtain ⟨b₂, _, rfl, h₂, h₂', h⟩ := closes_succ_iff.1 h
    obtain ⟨b₃, rfl, h₃, h₃', hc⟩ := closes_one_iff.1 h
    refine encodeChar_of_four ⟨hlow, hhigh⟩ ?_ ⟨h₂, h₂'⟩ ⟨h₃, h₃'⟩ ?_ ?_ hc
    · split_ifs at h₁ h₁' <;> omega
    · intro hb
      rwa [if_pos hb] at h₁
    · intro hb
      rwa [if_pos hb] at h₁'

/-- The encoding of a character that is not one byte is a lead byte and bytes that close it. -/
theorem closes_of_encode (h : String.utf8EncodeChar c = b :: tail) (hb : 0x80 ≤ b.toNat) :
    ∃ p, lead b.toNat = some p ∧ p.Closes tail c := by
  have hvalid := toNat_valid c
  have hchar : ∀ n, c.toNat = n → c = Char.ofNat n := by
    rintro n rfl
    exact c.ofNat_toNat.symm
  rcases encodeChar_cases c with ⟨hc, h'⟩ | ⟨hc, hc', h'⟩ | ⟨hc, hc', h'⟩ | ⟨hc, h'⟩
  · obtain ⟨rfl, _⟩ := List.cons_eq_cons.1 (h.symm.trans h')
    rw [toNat_byte (by omega)] at hb
    omega
  · obtain ⟨rfl, rfl⟩ := List.cons_eq_cons.1 (h.symm.trans h')
    rw [toNat_byte (by omega)]
    refine ⟨_, (lead_eq_some_iff ..).2 (.inl ⟨by omega, by omega, rfl⟩), ?_⟩
    refine closes_one_iff.2 ⟨_, rfl, ?_⟩
    rw [toNat_byte (by omega)]
    exact ⟨by omega, by omega, hchar _ (by omega)⟩
  · obtain ⟨rfl, rfl⟩ := List.cons_eq_cons.1 (h.symm.trans h')
    rw [toNat_byte (by omega)]
    refine ⟨_, (lead_eq_some_iff ..).2 (.inr (.inl ⟨by omega, by omega, rfl⟩)), ?_⟩
    refine closes_succ_iff.2 ⟨_, _, rfl, ?_⟩
    rw [toNat_byte (by omega)]
    refine ⟨by split_ifs <;> omega, by split_ifs <;> omega, closes_one_iff.2 ⟨_, rfl, ?_⟩⟩
    rw [toNat_byte (by omega)]
    exact ⟨by omega, by omega, hchar _ (by omega)⟩
  · obtain ⟨rfl, rfl⟩ := List.cons_eq_cons.1 (h.symm.trans h')
    rw [toNat_byte (by omega)]
    refine ⟨_, (lead_eq_some_iff ..).2 (.inr (.inr ⟨by omega, by omega, rfl⟩)), ?_⟩
    refine closes_succ_iff.2 ⟨_, _, rfl, ?_⟩
    rw [toNat_byte (by omega)]
    refine ⟨by split_ifs <;> omega, by split_ifs <;> omega, closes_succ_iff.2 ⟨_, _, rfl, ?_⟩⟩
    rw [toNat_byte (by omega)]
    refine ⟨by omega, by omega, closes_one_iff.2 ⟨_, rfl, ?_⟩⟩
    rw [toNat_byte (by omega)]
    exact ⟨by omega, by omega, hchar _ (by omega)⟩

/-- The encoding of a character below `0x80` is one byte. -/
theorem encodeChar_eq_singleton (h : c.toNat = b.toNat) (hb : b.toNat < 0x80) :
    String.utf8EncodeChar c = [b] := by
  rcases encodeChar_cases c with ⟨_, hc⟩ | ⟨hc, _⟩ | ⟨hc, _⟩ | ⟨hc, _⟩
  · rw [hc, ofNat_eq h]
  all_goals omega

/-- A byte below `0x80` in the encoding of a character is all of it. -/
theorem toNat_eq_of_mem_encodeChar (hmem : b ∈ String.utf8EncodeChar c) (hb : b.toNat < 0x80) :
    c.toNat = b.toNat := by
  have hvalid := toNat_valid c
  have hhigh : ∀ n, 0x80 ≤ n → n < 0x100 → b ≠ UInt8.ofNat n := by
    rintro n hn hn' rfl
    rw [toNat_byte hn'] at hb
    omega
  rcases encodeChar_cases c with ⟨hc, h⟩ | ⟨_, hc, h⟩ | ⟨_, hc, h⟩ | ⟨_, h⟩
  · rw [h, List.mem_singleton] at hmem
    rw [hmem, toNat_byte (by omega)]
  all_goals
    simp only [h, List.mem_cons, List.not_mem_nil, or_false] at hmem
  · rcases hmem with h | h <;> exact absurd h (hhigh _ (by omega) (by omega))
  · rcases hmem with h | h | h <;> exact absurd h (hhigh _ (by omega) (by omega))
  · rcases hmem with h | h | h | h <;> exact absurd h (hhigh _ (by omega) (by omega))

/-! ## Sequences -/

/-- The bytes are the encoding of a text. -/
def WellFormed (bs : List UInt8) : Prop :=
  ∃ cs, encode cs = bs

variable {cs : List Char}

/-- The empty text has no bytes. -/
@[simp] theorem encode_nil : encode [] = [] := rfl

/-- The bytes of a character stand in front of those of the characters behind it. -/
@[simp] theorem encode_cons (c : Char) (cs : List Char) :
    encode (c :: cs) = String.utf8EncodeChar c ++ encode cs := rfl

/-- The bytes of two texts stand one behind the other. -/
theorem encode_append (cs cs' : List Char) : encode (cs ++ cs') = encode cs ++ encode cs' :=
  List.flatMap_append

/-- An encoded text takes the bytes of its characters. -/
theorem length_encode (cs : List Char) : (encode cs).length = extent Char.utf8Size cs := by
  induction cs with
  | nil => rfl
  | cons c cs ih =>
    rw [encode_cons, List.length_append, String.length_utf8EncodeChar, ih, extent_cons]

/-- Only the empty text has no bytes. -/
@[simp] theorem encode_eq_nil_iff : encode cs = [] ↔ cs = [] := by
  cases cs with
  | nil => simp
  | cons c cs =>
    have hpos := c.utf8Size_pos
    rw [← String.length_utf8EncodeChar, List.length_pos_iff] at hpos
    simp [hpos]

/-- The bytes of a string are its encoded characters. -/
theorem encode_toList (s : String) : encode s.toList = s.toUTF8.data.toList := by
  have h : s.toUTF8 = s.toList.utf8Encode := by
    simp
  rw [h, List.utf8Encode, List.toList_data_toByteArray]
  rfl

/-- A character in front is the first piece. -/
theorem pieces_encodeChar (c : Char) (bs : List UInt8) :
    pieces (String.utf8EncodeChar c ++ bs) = some c :: pieces bs := by
  cases h : String.utf8EncodeChar c with
  | nil =>
    have hpos := c.utf8Size_pos
    rw [← String.length_utf8EncodeChar, h] at hpos
    exact absurd hpos (Nat.lt_irrefl 0)
  | cons b tail =>
    by_cases hb : b.toNat < 0x80
    · have hc := toNat_eq_of_mem_encodeChar (h ▸ List.mem_cons_self) hb
      rw [encodeChar_eq_singleton hc hb] at h
      rw [← (List.cons_eq_cons.1 h).2, List.singleton_append, pieces_ascii hb, ← hc, c.ofNat_toNat]
    · obtain ⟨p, hlead, hcloses⟩ := closes_of_encode h (Nat.not_lt.1 hb)
      rw [List.cons_append, pieces_lead (Nat.not_lt.1 hb) hlead, hcloses.piecesFrom]

/-- What is read as a character is the encoding of that character. -/
theorem exists_of_pieces_eq_cons (h : pieces bs = some c :: ps) :
    ∃ rest, bs = String.utf8EncodeChar c ++ rest ∧ pieces rest = ps := by
  cases bs with
  | nil => simp [pieces, piecesFrom] at h
  | cons b bs =>
    by_cases hb : b.toNat < 0x80
    · rw [pieces_ascii hb] at h
      obtain ⟨hc, hps⟩ := List.cons_eq_cons.1 h
      have hv : c.toNat = b.toNat := by
        rw [← Option.some.inj hc]
        exact toNat_ofNat (by omega)
      exact ⟨bs, by rw [encodeChar_eq_singleton hv hb]; rfl, hps⟩
    · cases hlead : lead b.toNat with
      | none => simp [pieces_refused (Nat.not_lt.1 hb) hlead] at h
      | some p =>
        rw [pieces_lead (Nat.not_lt.1 hb) hlead] at h
        obtain ⟨tail, rest, rfl, htail, hrest⟩ := closes_of_piecesFrom h
        exact ⟨rest, by rw [encode_of_closes hlead htail]; rfl, hrest⟩

/-- **The pieces of a text are its characters**, and what follows is read on its own. -/
theorem pieces_encode (cs : List Char) (bs : List UInt8) :
    pieces (encode cs ++ bs) = cs.map some ++ pieces bs := by
  induction cs with
  | nil => rfl
  | cons c cs ih =>
    rw [encode_cons, List.append_assoc, pieces_encodeChar, ih]
    rfl

/-- Bytes begin with the text that their first pieces are. -/
theorem exists_of_pieces_eq_append (h : pieces bs = cs.map some ++ ps) :
    ∃ rest, bs = encode cs ++ rest ∧ pieces rest = ps := by
  induction cs generalizing bs with
  | nil => exact ⟨bs, rfl, h⟩
  | cons c cs ih =>
    obtain ⟨bs', rfl, hbs'⟩ := exists_of_pieces_eq_cons h
    obtain ⟨rest, rfl, hrest⟩ := ih hbs'
    exact ⟨rest, by rw [encode_cons, List.append_assoc], hrest⟩

/-- Pieces that are all characters are those of a text. -/
theorem mapM_id_eq_some_iff : ps.mapM id = some cs ↔ ps = cs.map some := by
  induction ps generalizing cs with
  | nil => cases cs <;> simp
  | cons p ps ih =>
    cases p with
    | none => cases cs <;> simp
    | some c =>
      cases cs with
      | nil => simp [List.mapM_cons, Option.bind_eq_some_iff]
      | cons c' cs =>
        simp only [List.mapM_cons, id, Option.bind_eq_bind, Option.bind_some, Option.pure_def,
          Option.bind_eq_some_iff, ih, Option.some.injEq, List.cons_eq_cons, List.map_cons]
        constructor
        · rintro ⟨_, rfl, rfl, rfl⟩
          exact ⟨rfl, rfl⟩
        · rintro ⟨rfl, rfl⟩
          exact ⟨cs, rfl, rfl, rfl⟩

/-- **A sequence has the characters of the text that it is.** -/
theorem decode?_eq_some_iff : decode? bs = some cs ↔ encode cs = bs := by
  rw [decode?, mapM_id_eq_some_iff]
  constructor
  · intro h
    obtain ⟨rest, rfl, hrest⟩ := exists_of_pieces_eq_append (h.trans (List.append_nil _).symm)
    rw [pieces_eq_nil_iff.1 hrest, List.append_nil]
  · rintro rfl
    have h := pieces_encode cs []
    rwa [List.append_nil, show pieces [] = [] from rfl, List.append_nil] at h

/-- **Bytes cannot be read exactly if they are not the bytes of a text.** -/
theorem decode?_eq_none_iff : decode? bs = none ↔ ¬ WellFormed bs := by
  simp only [WellFormed, ← decode?_eq_some_iff, Option.eq_none_iff_forall_ne_some, not_exists, ne_eq]

instance (bs : List UInt8) : Decidable (WellFormed bs) :=
  decidable_of_iff ((decode? bs).isSome) (by
    simp only [WellFormed, ← decode?_eq_some_iff, Option.isSome_iff_exists])

/-! ## The well-formed beginning -/

/-- A text in front is part of the well-formed beginning. -/
theorem validLength_encode_append (cs : List Char) (bs : List UInt8) :
    validLength (encode cs ++ bs) = (encode cs).length + validLength bs := by
  unfold validLength
  rw [pieces_encode, length_encode]
  induction cs with
  | nil => simp
  | cons c cs ih =>
    rw [List.map_cons, List.cons_append, List.takeWhile_cons_of_pos rfl, extent_cons, ih, extent_cons,
      Nat.add_assoc]
    rfl

/-- The well-formed beginning is a text. -/
theorem exists_encode_validLength (bs : List UInt8) :
    ∃ cs rest, bs = encode cs ++ rest ∧ validLength bs = (encode cs).length := by
  induction h : pieces bs generalizing bs with
  | nil => exact ⟨[], bs, rfl, by rw [validLength, h]; rfl⟩
  | cons p ps ih =>
    cases p with
    | none => exact ⟨[], bs, rfl, by rw [validLength, h]; rfl⟩
    | some c =>
      obtain ⟨rest, rfl, hrest⟩ := exists_of_pieces_eq_cons h
      obtain ⟨cs, rest', rfl, hcs⟩ := ih rest hrest
      refine ⟨c :: cs, rest', by rw [encode_cons, List.append_assoc], ?_⟩
      have hc := validLength_encode_append [c] (encode cs ++ rest')
      rw [encode_cons, encode_nil, List.append_nil, hcs] at hc
      rw [hc, encode_cons, List.length_append]

/-- All of a sequence is its well-formed beginning exactly if it is well-formed. -/
theorem validLength_eq_length_iff : validLength bs = bs.length ↔ WellFormed bs := by
  constructor
  · intro h
    obtain ⟨cs, rest, rfl, hcs⟩ := exists_encode_validLength bs
    rw [hcs, List.length_append] at h
    have hrest : rest = [] := List.length_eq_zero_iff.1 (by omega)
    exact ⟨cs, by rw [hrest, List.append_nil]⟩
  · rintro ⟨cs, rfl⟩
    have h := validLength_encode_append cs []
    rwa [List.append_nil] at h

/-- What comes before the first bad piece is a beginning. -/
theorem validLength_le_length (bs : List UInt8) : validLength bs ≤ bs.length := by
  obtain ⟨cs, rest, rfl, hcs⟩ := exists_encode_validLength bs
  rw [hcs, List.length_append]
  omega

/-- **The well-formed beginning is the longest** that is well-formed. -/
theorem longest_validLength (bs : List UInt8) :
    WellFormed (bs.take (validLength bs)) ∧
      ∀ n, n ≤ bs.length → WellFormed (bs.take n) → n ≤ validLength bs := by
  constructor
  · obtain ⟨cs, rest, hbs, hlength⟩ := exists_encode_validLength bs
    refine ⟨cs, ?_⟩
    rw [hlength, hbs, List.take_left]
  · rintro n hn ⟨cs, hcs⟩
    have hvalid := validLength_encode_append cs (bs.drop n)
    rw [hcs, List.take_append_drop, List.length_take, Nat.min_eq_left hn] at hvalid
    omega

/-! ## Cutting at a byte below `0x80` -/

/-- Texts behind one another are a text. -/
theorem WellFormed.append {bs' : List UInt8} (h : WellFormed bs) (h' : WellFormed bs') :
    WellFormed (bs ++ bs') := by
  obtain ⟨cs, rfl⟩ := h
  obtain ⟨cs', rfl⟩ := h'
  exact ⟨cs ++ cs', encode_append cs cs'⟩

/-- A byte below `0x80` is the text of one character. -/
theorem wellFormed_singleton (hb : b.toNat < 0x80) : WellFormed [b] := by
  have h := encodeChar_eq_singleton (toNat_ofNat (n := b.toNat) (by omega)) hb
  exact ⟨[Char.ofNat b.toNat], by rw [encode_cons, encode_nil, List.append_nil, h]⟩

/-- The bytes of a character are a text. -/
theorem wellFormed_encodeChar (c : Char) : WellFormed (String.utf8EncodeChar c) :=
  ⟨[c], List.append_nil _⟩

/-- A byte below `0x80` is never inside a character, so a text can be cut at it. -/
theorem wellFormed_of_encode_eq_append {front behind : List UInt8} (hb : b.toNat < 0x80)
    (h : encode cs = front ++ b :: behind) : WellFormed front ∧ WellFormed behind := by
  induction cs generalizing front with
  | nil => simp at h
  | cons c cs ih =>
    rw [encode_cons, List.append_eq_append_iff] at h
    rcases h with ⟨front', rfl, h⟩ | ⟨rest, hc, h⟩
    · exact ⟨(wellFormed_encodeChar c).append (ih h).1, (ih h).2⟩
    · cases rest with
      | nil =>
        rw [List.append_nil] at hc
        have hbehind : encode cs = [] ++ b :: behind := h.symm
        exact ⟨hc ▸ wellFormed_encodeChar c, (ih hbehind).2⟩
      | cons b' rest =>
        obtain ⟨rfl, rfl⟩ := List.cons_eq_cons.1 h
        have hmem : b ∈ String.utf8EncodeChar c := by
          rw [hc]
          exact List.mem_append_right _ List.mem_cons_self
        -- the byte is all of the character
        rw [encodeChar_eq_singleton (toNat_eq_of_mem_encodeChar hmem hb) hb] at hc
        obtain ⟨rfl, _, rfl⟩ : front = [] ∧ b = b ∧ rest = [] := by
          cases front with
          | nil => simpa using hc.symm
          | cons => simp at hc
        exact ⟨⟨[], rfl⟩, ⟨cs, rfl⟩⟩

/-- **A byte below `0x80` parts the well-formedness** of what is in front from that of what is
behind. -/
theorem wellFormed_append_cons_iff {front behind : List UInt8} (hb : b.toNat < 0x80) :
    WellFormed (front ++ b :: behind) ↔ WellFormed front ∧ WellFormed behind := by
  constructor
  · rintro ⟨cs, h⟩
    exact wellFormed_of_encode_eq_append hb h
  · rintro ⟨hfront, hbehind⟩
    exact hfront.append ((wellFormed_singleton hb).append hbehind)

/-- **The parts between bytes below `0x80`** are well-formed if all of it is, and only then. -/
theorem wellFormed_iff_forall_mem_partsAt {b : UInt8} (hb : b.toNat < 0x80) {bs : List UInt8} :
    WellFormed bs ↔ ∀ part ∈ partsAt b bs, WellFormed part := by
  have hjoin : ∀ parts : List (List UInt8), parts ≠ [] →
      (WellFormed ([b].intercalate parts) ↔ ∀ part ∈ parts, WellFormed part) := by
    intro parts
    induction parts with
    | nil => exact fun h => absurd rfl h
    | cons part parts ih =>
      intro _
      cases parts with
      | nil => simp [List.intercalate]
      | cons next parts =>
        have hcons : [b].intercalate (part :: next :: parts)
            = part ++ b :: [b].intercalate (next :: parts) := by
          simp [List.intercalate, List.intersperse]
        rw [hcons, wellFormed_append_cons_iff hb, ih (by simp),
          List.forall_mem_cons (l := next :: parts)]
  rw [← hjoin _ (partsAt_ne_nil b bs), intercalate_partsAt]

/-- A text and a byte below `0x80` belong to the valid beginning. -/
theorem validLength_append_cons_of_wellFormed {front behind : List UInt8} (hb : b.toNat < 0x80)
    (h : WellFormed front) :
    validLength (front ++ b :: behind) = front.length + 1 + validLength behind := by
  obtain ⟨cs, hcs⟩ := h.append (wellFormed_singleton hb)
  have hlength := validLength_encode_append cs behind
  rw [hcs] at hlength
  simpa using hlength

/-- What is broken in front of a byte below `0x80` is broken there, whatever is behind. -/
theorem validLength_append_cons_lt {front behind : List UInt8} (hb : b.toNat < 0x80)
    (h : ¬ WellFormed front) : validLength (front ++ b :: behind) < front.length := by
  obtain ⟨cs, rest, hcs, hlength⟩ := exists_encode_validLength (front ++ b :: behind)
  rw [hlength]
  apply Nat.lt_of_not_le
  intro hle
  apply h
  rw [List.append_eq_append_iff] at hcs
  rcases hcs with ⟨front', henc, hrest⟩ | ⟨front', hfront, _⟩
  · cases front' with
    | nil => exact ⟨cs, by rw [henc, List.append_nil]⟩
    | cons b' front' =>
      obtain ⟨rfl, _⟩ := List.cons_eq_cons.1 hrest
      exact (wellFormed_of_encode_eq_append hb henc).1
  · have hnil : front' = [] := by
      rw [hfront, List.length_append] at hle
      exact List.length_eq_zero_iff.1 (by omega)
    exact ⟨cs, by rw [hfront, hnil, List.append_nil]⟩

end Threaded.Text.Utf8
