/-
  Decoding is exact.

  The decoder accepts some octets exactly when they are the encoding of a text,
  and gives that text (`decode_eq_ok_iff`). So what can be decoded is what the
  library calls valid UTF-8 (`readText_ok_iff`).

  What is known of a character begun is that whatever octets it can go on with
  complete it to a character that is encoded by all of them (`Begun.Spells`).
-/

import Sendability.Proofs.FlowGraph
import Sendability.Text.Utf8

namespace Sendability.Text.Utf8

-- ============================================================================
-- Encoded characters
-- ============================================================================

theorem toNat_ofNat_of_valid {n : Nat} (h : n.isValidChar) : (Char.ofNat n).val.toNat = n := by
  rw [Char.ofNat, dif_pos h]
  rfl

theorem octet_eq {n : Nat} {b : UInt8} (h : n = b.toNat) : UInt8.ofNat n = b := by
  rw [h, UInt8.ofNat_toNat]

theorem exists_octet {n : Nat} (h : n < 0x100) : ∃ b : UInt8, b = UInt8.ofNat n ∧ b.toNat = n :=
  ⟨UInt8.ofNat n, rfl, UInt8.toNat_ofNat_of_lt' h⟩

/-- The octet of a character of one octet. -/
theorem encode_one {b : UInt8} (hb : b.toNat < 0x80) :
    String.utf8EncodeChar (Char.ofNat b.toNat) = [b] := by
  rw [String.utf8EncodeChar.eq_def, toNat_ofNat_of_valid (.inl (by omega))]
  simp only [show b.toNat ≤ 0x7f by omega, if_true, octet_eq rfl]

/-- The octets of a character of two octets. -/
theorem encode_two {b b₁ : UInt8} (hb : 0xc2 ≤ b.toNat ∧ b.toNat ≤ 0xdf)
    (h₁ : 0x80 ≤ b₁.toNat ∧ b₁.toNat ≤ 0xbf) :
    String.utf8EncodeChar (Char.ofNat ((b.toNat - 0xc0) * 0x40 + (b₁.toNat - 0x80))) = [b, b₁] := by
  obtain ⟨n, hn⟩ : ∃ n, n = (b.toNat - 0xc0) * 0x40 + (b₁.toNat - 0x80) := ⟨_, rfl⟩
  have hsize : ¬ n ≤ 0x7f ∧ n ≤ 0x7ff := by omega
  rw [← hn, String.utf8EncodeChar.eq_def, toNat_ofNat_of_valid (.inl (by omega))]
  simp only [hsize.1, hsize.2, if_true, if_false]
  rw [octet_eq (b := b) (by omega), octet_eq (b := b₁) (by omega)]

/-- The octets of a character of three octets, which is no half of a pair. -/
theorem encode_three {b b₁ b₂ : UInt8} (hb : 0xe0 ≤ b.toNat ∧ b.toNat ≤ 0xef)
    (h₁ : (if b.toNat = 0xe0 then 0xa0 else 0x80) ≤ b₁.toNat ∧
      b₁.toNat ≤ if b.toNat = 0xed then 0x9f else 0xbf)
    (h₂ : 0x80 ≤ b₂.toNat ∧ b₂.toNat ≤ 0xbf) :
    String.utf8EncodeChar (Char.ofNat
      (((b.toNat - 0xe0) * 0x40 + (b₁.toNat - 0x80)) * 0x40 + (b₂.toNat - 0x80))) =
        [b, b₁, b₂] := by
  obtain ⟨n, hn⟩ :
      ∃ n, n = ((b.toNat - 0xe0) * 0x40 + (b₁.toNat - 0x80)) * 0x40 + (b₂.toNat - 0x80) := ⟨_, rfl⟩
  have hsize : ¬ n ≤ 0x7f ∧ ¬ n ≤ 0x7ff ∧ n ≤ 0xffff ∧ (n < 0xd800 ∨ 0xdfff < n) := by
    split at h₁ <;> split at h₁ <;> omega
  have htail : 0x80 ≤ b₁.toNat ∧ b₁.toNat ≤ 0xbf := by
    split at h₁ <;> split at h₁ <;> omega
  rw [← hn, String.utf8EncodeChar.eq_def, toNat_ofNat_of_valid (by omega)]
  simp only [hsize.1, hsize.2.1, hsize.2.2.1, if_true, if_false]
  rw [octet_eq (b := b) (by omega), octet_eq (b := b₁) (by omega), octet_eq (b := b₂) (by omega)]

/-- The octets of a character of four octets, which is not beyond the last one. -/
theorem encode_four {b b₁ b₂ b₃ : UInt8} (hb : 0xf0 ≤ b.toNat ∧ b.toNat ≤ 0xf4)
    (h₁ : (if b.toNat = 0xf0 then 0x90 else 0x80) ≤ b₁.toNat ∧
      b₁.toNat ≤ if b.toNat = 0xf4 then 0x8f else 0xbf)
    (h₂ : 0x80 ≤ b₂.toNat ∧ b₂.toNat ≤ 0xbf) (h₃ : 0x80 ≤ b₃.toNat ∧ b₃.toNat ≤ 0xbf) :
    String.utf8EncodeChar (Char.ofNat ((((b.toNat - 0xf0) * 0x40 + (b₁.toNat - 0x80)) * 0x40 +
      (b₂.toNat - 0x80)) * 0x40 + (b₃.toNat - 0x80))) = [b, b₁, b₂, b₃] := by
  obtain ⟨n, hn⟩ : ∃ n, n = (((b.toNat - 0xf0) * 0x40 + (b₁.toNat - 0x80)) * 0x40 +
      (b₂.toNat - 0x80)) * 0x40 + (b₃.toNat - 0x80) := ⟨_, rfl⟩
  have hsize : 0xffff < n ∧ n < 0x110000 := by
    split at h₁ <;> split at h₁ <;> omega
  have htail : 0x80 ≤ b₁.toNat ∧ b₁.toNat ≤ 0xbf := by
    split at h₁ <;> split at h₁ <;> omega
  rw [← hn, String.utf8EncodeChar.eq_def, toNat_ofNat_of_valid (by omega)]
  have hfour : ¬ n ≤ 0x7f ∧ ¬ n ≤ 0x7ff ∧ ¬ n ≤ 0xffff := by omega
  simp only [hfour.1, hfour.2.1, hfour.2.2, if_false]
  rw [octet_eq (b := b) (by omega), octet_eq (b := b₁) (by omega), octet_eq (b := b₂) (by omega),
    octet_eq (b := b₃) (by omega)]

-- ============================================================================
-- Characters begun
-- ============================================================================

namespace Begun

/-- A character begun can go on with an octet. -/
def Takes (g : Begun) (b : UInt8) : Prop := g.low ≤ b.toNat ∧ b.toNat ≤ g.high

/-- The character begun after one more octet. -/
def next (g : Begun) (b : UInt8) : Begun :=
  { g with owed := g.owed - 1, low := 0x80, high := 0xbf, bits := g.bits * 0x40 + (b.toNat - 0x80) }

/-- So many more octets complete those read so far to the encoding of a
    character, whichever they are. -/
def Spells : Nat → Begun → List UInt8 → Prop
  | 0, _, _ => False
  | 1, g, read => ∀ b, g.Takes b → String.utf8EncodeChar (Char.ofNat (g.next b).bits) = read ++ [b]
  | n + 2, g, read => ∀ b, g.Takes b → Spells (n + 1) (g.next b) (read ++ [b])

/-- A character that is begun and goes on spells what was read so far. -/
theorem Spells.next {g : Begun} {read : List UInt8} (h : g.Spells g.owed read) (hg : g.owed ≠ 1)
    {b : UInt8} (hb : g.Takes b) : (g.next b).Spells (g.next b).owed (read ++ [b]) := by
  have howed : (g.next b).owed = g.owed - 1 := rfl
  rw [howed]
  cases hn : g.owed with
  | zero =>
    rw [hn] at h
    exact h.elim
  | succ n =>
    cases n with
    | zero => exact absurd hn hg
    | succ n =>
      rw [hn] at h
      exact h b hb

end Begun

theorem spells_begin {pos : Nat} {b : UInt8} {g : Begun} (h : begin? pos b.toNat = some g) :
    g.Spells g.owed [b] := by
  unfold begin? at h
  simp only [Bool.and_eq_true, decide_eq_true_eq] at h
  split at h
  · rename_i hb
    obtain rfl := Option.some.inj h
    exact fun b₁ h₁ => encode_two hb h₁
  split at h
  · rename_i hb
    obtain rfl := Option.some.inj h
    exact fun b₁ h₁ b₂ h₂ => encode_three hb h₁ h₂
  split at h
  · rename_i hb
    obtain rfl := Option.some.inj h
    exact fun b₁ h₁ b₂ h₂ b₃ h₃ => encode_four hb h₁ h₂ h₃
  · cases h

/-- An octet below 128 is a character. -/
theorem decodeFrom_one {b : UInt8} (hb : b.toNat < 0x80) (pos : Nat) (bs : List UInt8) :
    decodeFrom none pos (b :: bs) =
      (decodeFrom none (pos + 1) bs).map (Char.ofNat b.toNat :: ·) := by
  rw [decodeFrom, if_pos hb]
  cases decodeFrom none (pos + 1) bs with
  | error f => rfl
  | ok cs => rfl

/-- A larger one begins a character of several octets. -/
theorem decodeFrom_begin {b : UInt8} (hb : ¬ b.toNat < 0x80) {pos : Nat} {g : Begun}
    (h : begin? pos b.toNat = some g) (bs : List UInt8) :
    decodeFrom none pos (b :: bs) = decodeFrom (some g) (pos + 1) bs := by
  rw [decodeFrom, if_neg hb, h]

theorem decodeFrom_next {g : Begun} {b : UInt8} (hb : g.Takes b) (hg : g.owed ≠ 1) (pos : Nat)
    (bs : List UInt8) :
    decodeFrom (some g) pos (b :: bs) = decodeFrom (some (g.next b)) (pos + 1) bs := by
  rw [decodeFrom, if_pos (by simpa [Begun.Takes] using hb)]
  exact if_neg hg

/-- The last octet that is owed ends the character. -/
theorem decodeFrom_last {g : Begun} {b : UInt8} (hb : g.Takes b) (hg : g.owed = 1) (pos : Nat)
    (bs : List UInt8) : decodeFrom (some g) pos (b :: bs) =
      (decodeFrom none (pos + 1) bs).map (Char.ofNat (g.next b).bits :: ·) := by
  rw [decodeFrom, if_pos (by simpa [Begun.Takes] using hb)]
  simp only [hg, if_true]
  cases decodeFrom none (pos + 1) bs with
  | error f => rfl
  | ok cs => rfl

-- ============================================================================
-- What is decoded was encoded
-- ============================================================================

/-- Octets read before are those of the character begun, and none without one. -/
def Reads : Option Begun → List UInt8 → Prop
  | none, read => read = []
  | some g, read => g.Spells g.owed read

/-- What was decoded encodes back to what was read; the induction is on the octets. -/
theorem encode_of_decodeFrom {start : Option Begun} {pos : Nat} {octets read : List UInt8}
    {cs : List Char} (h : decodeFrom start pos octets = .ok cs) (hread : Reads start read) :
    read ++ octets = cs.flatMap String.utf8EncodeChar := by
  induction octets generalizing start pos read cs with
  | nil =>
    cases start with
    | none =>
      obtain rfl := Except.ok.inj h
      exact congrArg (· ++ []) hread
    | some g => cases h
  | cons b bs ih =>
    cases start with
    | none =>
      obtain rfl : read = [] := hread
      by_cases hb : b.toNat < 0x80
      · rw [decodeFrom_one hb] at h
        obtain ⟨cs', hok, rfl⟩ := ok_of_map h
        rw [List.flatMap_cons, encode_one hb, ← ih hok rfl]
        rfl
      · cases hg : begin? pos b.toNat with
        | none =>
          rw [decodeFrom, if_neg hb, hg] at h
          cases h
        | some g =>
          rw [decodeFrom_begin hb hg] at h
          exact ih h (spells_begin hg)
    | some g =>
      have hread : g.Spells g.owed read := hread
      by_cases hb : g.Takes b
      · by_cases hone : g.owed = 1
        · rw [decodeFrom_last hb hone] at h
          obtain ⟨cs', hok, rfl⟩ := ok_of_map h
          rw [hone] at hread
          rw [List.flatMap_cons, hread b hb, ← ih hok rfl, List.append_assoc]
          rfl
        · rw [decodeFrom_next hb hone] at h
          rw [← ih h (hread.next hone hb), List.append_assoc]
          rfl
      · rw [decodeFrom, if_neg (by simpa [Begun.Takes] using hb)] at h
        cases h

-- ============================================================================
-- What is encoded is decoded
-- ============================================================================

theorem decodeFrom_two {b b₁ : UInt8} (hb : 0xc2 ≤ b.toNat ∧ b.toNat ≤ 0xdf)
    (h₁ : 0x80 ≤ b₁.toNat ∧ b₁.toNat ≤ 0xbf) (pos : Nat) (rest : List UInt8) :
    decodeFrom none pos (b :: b₁ :: rest) = (decodeFrom none (pos + 2) rest).map
      (Char.ofNat ((b.toNat - 0xc0) * 0x40 + (b₁.toNat - 0x80)) :: ·) := by
  have hg : begin? pos b.toNat = some ⟨pos, b.toNat, 1, 0x80, 0xbf, b.toNat - 0xc0⟩ := by
    rw [begin?, if_pos (by simpa using hb)]
  rw [decodeFrom_begin (by omega) hg]
  exact decodeFrom_last (by exact h₁) rfl _ _

theorem decodeFrom_three {b b₁ b₂ : UInt8} (hb : 0xe0 ≤ b.toNat ∧ b.toNat ≤ 0xef)
    (h₁ : (if b.toNat = 0xe0 then 0xa0 else 0x80) ≤ b₁.toNat ∧
      b₁.toNat ≤ if b.toNat = 0xed then 0x9f else 0xbf)
    (h₂ : 0x80 ≤ b₂.toNat ∧ b₂.toNat ≤ 0xbf) (pos : Nat) (rest : List UInt8) :
    decodeFrom none pos (b :: b₁ :: b₂ :: rest) = (decodeFrom none (pos + 3) rest).map
      (Char.ofNat (((b.toNat - 0xe0) * 0x40 + (b₁.toNat - 0x80)) * 0x40 + (b₂.toNat - 0x80)) ::
        ·) := by
  have hg : begin? pos b.toNat = some ⟨pos, b.toNat, 2, if b.toNat = 0xe0 then 0xa0 else 0x80,
      if b.toNat = 0xed then 0x9f else 0xbf, b.toNat - 0xe0⟩ := by
    rw [begin?, if_neg (by simp; omega), if_pos (by simpa using hb)]
  rw [decodeFrom_begin (by omega) hg]
  refine (decodeFrom_next (by exact h₁) (by simp) _ _).trans ?_
  exact decodeFrom_last (by exact h₂) rfl _ _

theorem decodeFrom_four {b b₁ b₂ b₃ : UInt8} (hb : 0xf0 ≤ b.toNat ∧ b.toNat ≤ 0xf4)
    (h₁ : (if b.toNat = 0xf0 then 0x90 else 0x80) ≤ b₁.toNat ∧
      b₁.toNat ≤ if b.toNat = 0xf4 then 0x8f else 0xbf)
    (h₂ : 0x80 ≤ b₂.toNat ∧ b₂.toNat ≤ 0xbf) (h₃ : 0x80 ≤ b₃.toNat ∧ b₃.toNat ≤ 0xbf)
    (pos : Nat) (rest : List UInt8) :
    decodeFrom none pos (b :: b₁ :: b₂ :: b₃ :: rest) = (decodeFrom none (pos + 4) rest).map
      (Char.ofNat ((((b.toNat - 0xf0) * 0x40 + (b₁.toNat - 0x80)) * 0x40 + (b₂.toNat - 0x80)) *
        0x40 + (b₃.toNat - 0x80)) :: ·) := by
  have hg : begin? pos b.toNat = some ⟨pos, b.toNat, 3, if b.toNat = 0xf0 then 0x90 else 0x80,
      if b.toNat = 0xf4 then 0x8f else 0xbf, b.toNat - 0xf0⟩ := by
    rw [begin?, if_neg (by simp; omega), if_neg (by simp; omega), if_pos (by simpa using hb)]
  rw [decodeFrom_begin (by omega) hg]
  refine (decodeFrom_next (by exact h₁) (by simp) _ _).trans ?_
  refine (decodeFrom_next (by exact h₂) (by simp [Begun.next]) _ _).trans ?_
  exact decodeFrom_last (by exact h₃) rfl _ _

/-- A character is decoded from its octets. -/
theorem decodeFrom_encode (c : Char) (pos : Nat) (rest : List UInt8) :
    ∃ pos', decodeFrom none pos (String.utf8EncodeChar c ++ rest) =
      (decodeFrom none pos' rest).map (c :: ·) := by
  obtain ⟨v, hv⟩ : ∃ v, v = c.val.toNat := ⟨_, rfl⟩
  have hchar : Char.ofNat v = c := by
    rw [hv]
    exact Char.ofNat_toNat c
  have hvalid : v < 0xd800 ∨ 0xdfff < v ∧ v < 0x110000 := by
    rw [hv]
    exact c.valid
  rw [String.utf8EncodeChar.eq_def, ← hv]
  simp only
  -- the tails carry six bits each, the first octet the others
  obtain ⟨t, htail, ht⟩ := exists_octet (n := v % 64 + 128) (by omega)
  obtain ⟨t', htail', ht'⟩ := exists_octet (n := v / 64 % 64 + 128) (by omega)
  obtain ⟨t'', htail'', ht''⟩ := exists_octet (n := v / 4096 % 64 + 128) (by omega)
  rw [← htail, ← htail', ← htail'']
  split
  · obtain ⟨b, rfl, hb⟩ := exists_octet (n := v) (by omega)
    refine ⟨pos + 1, ?_⟩
    rw [List.singleton_append, decodeFrom_one (by omega), hb, hchar]
  split
  · obtain ⟨b, hfirst, hb⟩ := exists_octet (n := v / 64 % 32 + 192) (by omega)
    have hbits : (b.toNat - 0xc0) * 0x40 + (t.toNat - 0x80) = v := by omega
    refine ⟨pos + 2, ?_⟩
    rw [← hfirst, ← hchar, ← hbits]
    exact decodeFrom_two (by omega) (by omega) pos rest
  split
  · obtain ⟨b, hfirst, hb⟩ := exists_octet (n := v / 4096 % 16 + 224) (by omega)
    have hbits : ((b.toNat - 0xe0) * 0x40 + (t'.toNat - 0x80)) * 0x40 + (t.toNat - 0x80) = v := by
      omega
    refine ⟨pos + 3, ?_⟩
    rw [← hfirst, ← hchar, ← hbits]
    exact decodeFrom_three (by omega) (by split <;> split <;> omega) (by omega) pos rest
  · obtain ⟨b, hfirst, hb⟩ := exists_octet (n := v / 262144 % 8 + 240) (by omega)
    have hbits : (((b.toNat - 0xf0) * 0x40 + (t''.toNat - 0x80)) * 0x40 + (t'.toNat - 0x80)) *
        0x40 + (t.toNat - 0x80) = v := by
      omega
    refine ⟨pos + 4, ?_⟩
    rw [← hfirst, ← hchar, ← hbits]
    exact decodeFrom_four (by omega) (by split <;> split <;> omega) (by omega) (by omega) pos rest

theorem decodeFrom_flatMap (cs : List Char) (pos : Nat) :
    decodeFrom none pos (cs.flatMap String.utf8EncodeChar) = .ok cs := by
  induction cs generalizing pos with
  | nil => rfl
  | cons c cs ih =>
    obtain ⟨pos', h⟩ := decodeFrom_encode c pos (cs.flatMap String.utf8EncodeChar)
    rw [List.flatMap_cons, h, ih]
    rfl

/-- Octets are decoded to a text exactly when they encode it. -/
theorem decode_eq_ok_iff {octets : List UInt8} {cs : List Char} :
    decode octets = .ok cs ↔ octets = cs.flatMap String.utf8EncodeChar := by
  constructor
  · intro h
    have hread : Reads none [] := rfl
    exact encode_of_decodeFrom h hread
  · rintro rfl
    exact decodeFrom_flatMap cs 0

/-- A text can be read exactly from valid UTF-8. -/
theorem readText_ok_iff {octets : List UInt8} :
    (∃ text, readText octets = .ok text) ↔ octets.toByteArray.IsValidUTF8 := by
  constructor
  · rintro ⟨text, h⟩
    cases hd : decode octets with
    | error f =>
      rw [readText, hd] at h
      cases h
    | ok cs => exact ⟨cs, by rw [decode_eq_ok_iff.1 hd, List.utf8Encode]⟩
  · rintro ⟨cs, h⟩
    refine ⟨unixLines cs, ?_⟩
    rw [readText, decode_eq_ok_iff.2 (List.toByteArray_inj.1 h)]
    rfl

end Sendability.Text.Utf8
