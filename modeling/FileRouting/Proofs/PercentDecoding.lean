import FileRouting.Proofs.Utf8
import FileRouting.Request.Percent

/-! # What percent-decoding reads

`Percent.Decodes` relates bytes to what they are decoded to, escape by escape, and
`Percent.BrokenAt` says where decoding stops: at a percent sign that two hexadecimal digits do not
follow, behind bytes that are decoded.  `decode_eq_ok_iff` and `decode_eq_error_iff` say that the
decoder does exactly this. -/

namespace FileRouting.Percent

/-- Whether the bytes begin with two hexadecimal digits. -/
def TwoDigits (bytes : Bytes) : Prop :=
  ∃ high low behind, bytes = high :: low :: behind ∧
    (hexValue? high.toNat).isSome ∧ (hexValue? low.toNat).isSome

/-- The bytes that others are decoded to: an escape stands for the byte whose digits it has, and
every byte but a percent sign for itself. -/
inductive Decodes : Bytes → Bytes → Prop where
  | nil : Decodes [] []
  | plain {b : UInt8} {bytes decoded : Bytes} (hb : b ≠ 0x25) (h : Decodes bytes decoded) :
      Decodes (b :: bytes) (b :: decoded)
  | escape {high low byte : UInt8} {bytes decoded : Bytes}
      (hhigh : hexValue? high.toNat = some (byte.toNat / 16))
      (hlow : hexValue? low.toNat = some (byte.toNat % 16)) (h : Decodes bytes decoded) :
      Decodes (0x25 :: high :: low :: bytes) (byte :: decoded)

/-- Whether decoding meets a percent sign at this index that begins no escape. -/
def BrokenAt (bytes : Bytes) (index : Nat) : Prop :=
  ∃ front decoded behind, bytes = front ++ 0x25 :: behind ∧ front.length = index ∧
    Decodes front decoded ∧ ¬ TwoDigits behind

theorem Decodes.append {front back decoded decoded' : Bytes} (h : Decodes front decoded)
    (h' : Decodes back decoded') : Decodes (front ++ back) (decoded ++ decoded') := by
  induction h with
  | nil => exact h'
  | plain hb _ ih => exact .plain hb ih
  | escape hhigh hlow _ ih => exact .escape hhigh hlow ih

theorem decodes_self {bytes : Bytes} (h : ∀ b ∈ bytes, b ≠ 0x25) : Decodes bytes bytes := by
  induction bytes with
  | nil => exact .nil
  | cons b bytes ih =>
      rw [List.forall_mem_cons] at h
      exact .plain h.1 (ih h.2)

theorem escapedByte?_eq_some_iff {high low byte : UInt8} :
    escapedByte? high low = some byte ↔
      hexValue? high.toNat = some (byte.toNat / 16) ∧
      hexValue? low.toNat = some (byte.toNat % 16) := by
  constructor
  · intro h
    obtain ⟨hi, hhigh, h⟩ := Option.bind_eq_some_iff.1 h
    obtain ⟨lo, hlow, rfl⟩ := Option.map_eq_some_iff.1 h
    have hhi := hexValue?_lt hhigh
    have hlo := hexValue?_lt hlow
    rw [Utf8.toNat_ofNat_byte (by omega), hhigh, hlow, Option.some.injEq, Option.some.injEq]
    omega
  · rintro ⟨hhigh, hlow⟩
    have hbyte : 16 * (byte.toNat / 16) + byte.toNat % 16 = byte.toNat := Nat.div_add_mod ..
    rw [escapedByte?, hhigh, hlow]
    simp only [Option.bind_some, Option.map_some, hbyte, UInt8.ofNat_toNat]

theorem twoDigits_cons_iff {high low : UInt8} {behind : Bytes} :
    TwoDigits (high :: low :: behind) ↔ ∃ byte, escapedByte? high low = some byte := by
  unfold escapedByte?
  constructor
  · rintro ⟨_, _, _, heq, hhigh, hlow⟩
    cases heq
    obtain ⟨h, hh⟩ := Option.isSome_iff_exists.1 hhigh
    obtain ⟨l, hl⟩ := Option.isSome_iff_exists.1 hlow
    rw [hh, hl]
    exact ⟨_, rfl⟩
  · rintro ⟨byte, h⟩
    obtain ⟨h, hhigh, hmap⟩ := Option.bind_eq_some_iff.1 h
    obtain ⟨l, hlow, _⟩ := Option.map_eq_some_iff.1 hmap
    exact ⟨high, low, behind, rfl, by rw [hhigh]; rfl, by rw [hlow]; rfl⟩

/-! ## One step of the decoder -/

theorem decodeFrom_plain_cons {b : UInt8} (hb : b ≠ 0x25) (index : Nat) (bytes : Bytes) :
    decodeFrom index (b :: bytes) = (decodeFrom (index + 1) bytes).map (b :: ·) := by
  rw [decodeFrom.eq_def]
  simp only [if_neg hb]

theorem decodeFrom_escape {high low byte : UInt8} (h : escapedByte? high low = some byte)
    (index : Nat) (bytes : Bytes) :
    decodeFrom index (0x25 :: high :: low :: bytes) =
      (decodeFrom (index + 3) bytes).map (byte :: ·) := by
  rw [decodeFrom]
  simp only [h, if_true]

theorem decodeFrom_broken {behind : Bytes} (h : ¬ TwoDigits behind) (index : Nat) :
    decodeFrom index (0x25 :: behind) = .error index := by
  match behind with
  | [] => rfl
  | [_] => rfl
  | high :: low :: _ =>
      cases hbyte : escapedByte? high low with
      | none =>
          rw [decodeFrom]
          simp only [hbyte, if_true]
      | some byte => exact absurd (twoDigits_cons_iff.2 ⟨byte, hbyte⟩) h

/-! ## The whole decoder -/

theorem decodeFrom_of_decodes {bytes decoded : Bytes} (h : Decodes bytes decoded) (index : Nat) :
    decodeFrom index bytes = .ok decoded := by
  induction h generalizing index with
  | nil => rfl
  | plain hb _ ih =>
      rw [decodeFrom_plain_cons hb, ih]
      rfl
  | escape hhigh hlow _ ih =>
      rw [decodeFrom_escape (escapedByte?_eq_some_iff.2 ⟨hhigh, hlow⟩), ih]
      rfl

theorem decodeFrom_append_broken {front decoded behind : Bytes} (h : Decodes front decoded)
    (hbehind : ¬ TwoDigits behind) (index : Nat) :
    decodeFrom index (front ++ 0x25 :: behind) = .error (index + front.length) := by
  induction h generalizing index with
  | nil => exact decodeFrom_broken hbehind index
  | plain hb _ ih =>
      rw [List.cons_append, decodeFrom_plain_cons hb, ih, Except.map, List.length_cons]
      congr 1
      omega
  | escape hhigh hlow _ ih =>
      rw [List.cons_append, List.cons_append, List.cons_append,
        decodeFrom_escape (escapedByte?_eq_some_iff.2 ⟨hhigh, hlow⟩), ih, Except.map]
      simp only [List.length_cons]
      congr 1
      omega

/-- Bytes are decoded to the end, or up to a percent sign that begins no escape. -/
theorem decodes_or_brokenAt (bytes : Bytes) :
    (∃ decoded, Decodes bytes decoded) ∨ ∃ index, BrokenAt bytes index := by
  match bytes with
  | [] => exact .inl ⟨[], .nil⟩
  | b :: behind =>
      by_cases hb : b = 0x25
      · subst hb
        by_cases hdigits : TwoDigits behind
        · obtain ⟨high, low, behind, rfl, -⟩ := id hdigits
          obtain ⟨byte, hbyte⟩ := twoDigits_cons_iff.1 hdigits
          obtain ⟨hhigh, hlow⟩ := escapedByte?_eq_some_iff.1 hbyte
          rcases decodes_or_brokenAt behind with
            ⟨decoded, h⟩ | ⟨_, front, decoded, behind, rfl, rfl, h, hbroken⟩
          · exact .inl ⟨byte :: decoded, .escape hhigh hlow h⟩
          · exact .inr ⟨_, 0x25 :: high :: low :: front, byte :: decoded, behind, rfl, rfl,
              .escape hhigh hlow h, hbroken⟩
        · exact .inr ⟨0, [], [], behind, rfl, rfl, .nil, hdigits⟩
      · rcases decodes_or_brokenAt behind with
          ⟨decoded, h⟩ | ⟨_, front, decoded, behind, rfl, rfl, h, hbroken⟩
        · exact .inl ⟨b :: decoded, .plain hb h⟩
        · exact .inr ⟨_, b :: front, b :: decoded, behind, rfl, rfl, .plain hb h, hbroken⟩
termination_by bytes.length

theorem decode_eq_error_of_brokenAt {bytes : Bytes} {index : Nat} (h : BrokenAt bytes index) :
    decode bytes = .error index := by
  obtain ⟨front, decoded, behind, rfl, rfl, hfront, hbehind⟩ := h
  rw [decode, decodeFrom_append_broken hfront hbehind, Nat.zero_add]

theorem decode_eq_ok_iff {bytes decoded : Bytes} :
    decode bytes = .ok decoded ↔ Decodes bytes decoded := by
  constructor
  · intro h
    rcases decodes_or_brokenAt bytes with ⟨other, hother⟩ | ⟨index, hbroken⟩
    · have heq : decode bytes = .ok other := decodeFrom_of_decodes hother 0
      rw [h] at heq
      exact Except.ok.inj heq ▸ hother
    · rw [decode_eq_error_of_brokenAt hbroken] at h
      cases h
  · exact fun h => decodeFrom_of_decodes h 0

theorem decode_eq_error_iff {bytes : Bytes} {index : Nat} :
    decode bytes = .error index ↔ BrokenAt bytes index := by
  constructor
  · intro h
    rcases decodes_or_brokenAt bytes with ⟨decoded, hdecoded⟩ | ⟨position, hbroken⟩
    · rw [decode_eq_ok_iff.2 hdecoded] at h
      cases h
    · rw [decode_eq_error_of_brokenAt hbroken] at h
      exact Except.error.inj h ▸ hbroken
  · exact decode_eq_error_of_brokenAt

end FileRouting.Percent
