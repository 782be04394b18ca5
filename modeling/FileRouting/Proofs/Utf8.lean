import FileRouting.Text.Utf8

/-! # Reading UTF-8 loses nothing

`Utf8.decode?` accepts a byte string only as the one way to write the text that it reads.  The
bounds that the machine keeps for the next byte are what rules out a second way: within them,
`String.utf8EncodeChar` gives back the bytes that a character was read from.

A slash is read from its own byte only, and read there whatever stands before it, since a character
that takes more bytes cannot be a slash (`Pending.IsLong`). -/

namespace FileRouting.Utf8

/-! ## Writing a character that was read -/

theorem toNat_ofNat {n : Nat} (h : n.isValidChar) : (Char.ofNat n).val.toNat = n := by
  rw [Char.ofNat, dif_pos h]
  rfl

theorem ofNat_eq {n : Nat} {b : UInt8} (h : n = b.toNat) : UInt8.ofNat n = b := by
  rw [h, UInt8.ofNat_toNat]

theorem encodeChar_one {a : UInt8} (ha : a.toNat < 0x80) :
    String.utf8EncodeChar (Char.ofNat a.toNat) = [a] := by
  rw [String.utf8EncodeChar, toNat_ofNat (.inl (by omega))]
  simp only [if_pos (show a.toNat ≤ 0x7F by omega), UInt8.ofNat_toNat]

theorem encodeChar_two {a b : UInt8} (hlow : 0xC2 ≤ a.toNat) (hhigh : a.toNat < 0xE0)
    (hb : 0x80 ≤ b.toNat ∧ b.toNat ≤ 0xBF) :
    String.utf8EncodeChar (Char.ofNat ((a.toNat - 0xC0) * 64 + b.toNat % 64)) = [a, b] := by
  rw [String.utf8EncodeChar, toNat_ofNat (.inl (by omega))]
  rw [if_neg (by omega), if_pos (by omega)]
  rw [ofNat_eq (b := a) (by omega), ofNat_eq (b := b) (by omega)]

theorem encodeChar_three {a b c : UInt8} (hlow : 0xE0 ≤ a.toNat) (hhigh : a.toNat < 0xF0)
    (hb : (if a.toNat = 0xE0 then 0xA0 else 0x80) ≤ b.toNat ∧
      b.toNat ≤ if a.toNat = 0xED then 0x9F else 0xBF)
    (hc : 0x80 ≤ c.toNat ∧ c.toNat ≤ 0xBF) :
    String.utf8EncodeChar
      (Char.ofNat (((a.toNat - 0xE0) * 64 + b.toNat % 64) * 64 + c.toNat % 64)) = [a, b, c] := by
  have hvalid : (((a.toNat - 0xE0) * 64 + b.toNat % 64) * 64 + c.toNat % 64).isValidChar := by
    unfold Nat.isValidChar
    split at hb <;> split at hb <;> omega
  have hcontinues : 0x80 ≤ b.toNat ∧ b.toNat ≤ 0xBF := by
    split at hb <;> split at hb <;> omega
  have hlong : 0x7FF < ((a.toNat - 0xE0) * 64 + b.toNat % 64) * 64 + c.toNat % 64 := by
    split at hb <;> omega
  rw [String.utf8EncodeChar, toNat_ofNat hvalid]
  rw [if_neg (by omega), if_neg (by omega), if_pos (by omega)]
  rw [ofNat_eq (b := a) (by omega), ofNat_eq (b := b) (by omega), ofNat_eq (b := c) (by omega)]

theorem encodeChar_four {a b c d : UInt8} (hlow : 0xF0 ≤ a.toNat) (hhigh : a.toNat < 0xF5)
    (hb : (if a.toNat = 0xF0 then 0x90 else 0x80) ≤ b.toNat ∧
      b.toNat ≤ if a.toNat = 0xF4 then 0x8F else 0xBF)
    (hc : 0x80 ≤ c.toNat ∧ c.toNat ≤ 0xBF) (hd : 0x80 ≤ d.toNat ∧ d.toNat ≤ 0xBF) :
    String.utf8EncodeChar
      (Char.ofNat ((((a.toNat - 0xF0) * 64 + b.toNat % 64) * 64 + c.toNat % 64) * 64 +
        d.toNat % 64)) = [a, b, c, d] := by
  have hrange : 0xFFFF < (((a.toNat - 0xF0) * 64 + b.toNat % 64) * 64 + c.toNat % 64) * 64 +
      d.toNat % 64 ∧ (((a.toNat - 0xF0) * 64 + b.toNat % 64) * 64 + c.toNat % 64) * 64 +
      d.toNat % 64 < 0x110000 := by
    split at hb <;> split at hb <;> omega
  have hcontinues : 0x80 ≤ b.toNat ∧ b.toNat ≤ 0xBF := by
    split at hb <;> split at hb <;> omega
  rw [String.utf8EncodeChar, toNat_ofNat (.inr (by omega))]
  rw [if_neg (by omega), if_neg (by omega), if_neg (by omega)]
  rw [ofNat_eq (b := a) (by omega), ofNat_eq (b := b) (by omega), ofNat_eq (b := c) (by omega),
    ofNat_eq (b := d) (by omega)]

/-! ## Reading -/

/-- In the middle of a character, a text is read only if the next byte is within the bounds. -/
theorem exists_of_piecesFrom_some {p : Pending} {bytes : Bytes} {t : Text}
    (h : piecesFrom (some p) bytes = t.map some) :
    ∃ b behind, bytes = b :: behind ∧ (p.low ≤ b.toNat ∧ b.toNat ≤ p.high) ∧
      piecesFrom (some p) bytes =
        match p.left with
        | 0 => some (Char.ofNat (p.code * 64 + b.toNat % 64)) :: piecesFrom none behind
        | left + 1 => piecesFrom (some ⟨p.code * 64 + b.toNat % 64, left, 0x80, 0xBF⟩) behind := by
  obtain ⟨code, left, low, high⟩ := p
  cases bytes with
  | nil => cases t <;> simp [piecesFrom] at h
  | cons b behind =>
      by_cases hbounds : low ≤ b.toNat ∧ b.toNat ≤ high
      · refine ⟨b, behind, rfl, hbounds, ?_⟩
        rw [piecesFrom, step, if_pos hbounds]
        cases left <;> rfl
      · rw [piecesFrom, step, if_neg hbounds] at h
        cases t <;> simp at h

theorem exists_last {code low high : Nat} {bytes : Bytes} {t : Text}
    (h : piecesFrom (some ⟨code, 0, low, high⟩) bytes = t.map some) :
    ∃ b behind t', bytes = b :: behind ∧ (low ≤ b.toNat ∧ b.toNat ≤ high) ∧
      t = Char.ofNat (code * 64 + b.toNat % 64) :: t' ∧ piecesFrom none behind = t'.map some := by
  obtain ⟨b, behind, rfl, hbounds, hpieces⟩ := exists_of_piecesFrom_some h
  rw [h] at hpieces
  cases t with
  | nil => cases hpieces
  | cons c t =>
      simp only [List.map_cons, List.cons.injEq, Option.some.injEq] at hpieces
      exact ⟨b, behind, t, rfl, hbounds, by rw [hpieces.1], hpieces.2.symm⟩

theorem exists_more {code left low high : Nat} {bytes : Bytes} {t : Text}
    (h : piecesFrom (some ⟨code, left + 1, low, high⟩) bytes = t.map some) :
    ∃ b behind, bytes = b :: behind ∧ (low ≤ b.toNat ∧ b.toNat ≤ high) ∧
      piecesFrom (some ⟨code * 64 + b.toNat % 64, left, 0x80, 0xBF⟩) behind = t.map some := by
  obtain ⟨b, behind, rfl, hbounds, hpieces⟩ := exists_of_piecesFrom_some h
  exact ⟨b, behind, rfl, hbounds, by rw [← h, hpieces]⟩

theorem encode_cons (c : Char) (t : Text) : encode (c :: t) = String.utf8EncodeChar c ++ encode t :=
  List.flatMap_cons

/-- Between characters, the text read is written as the bytes. -/
theorem encode_of_piecesFrom_none {bytes : Bytes} {t : Text}
    (h : piecesFrom none bytes = t.map some) : encode t = bytes := by
  cases bytes with
  | nil =>
      cases t with
      | nil => rfl
      | cons c t => cases h
  | cons a bytes =>
      rw [piecesFrom, step, start] at h
      split at h
      · next ha =>
        cases t with
        | nil => cases h
        | cons c t =>
            simp only [List.cons_append, List.nil_append, List.map_cons, List.cons.injEq,
              Option.some.injEq] at h
            rw [encode_cons, ← h.1, encodeChar_one ha, encode_of_piecesFrom_none h.2]
            rfl
      split at h
      -- no character begins with this byte
      · cases t <;> simp at h
      split at h
      -- from here on, `start` sets the bounds for the second byte that `encodeChar` asks for
      · obtain ⟨b, behind, t, rfl, hb, rfl, hlater⟩ := exists_last h
        rw [encode_cons, encodeChar_two (by omega) (by omega) hb, encode_of_piecesFrom_none hlater]
        rfl
      split at h
      · obtain ⟨b, behind, rfl, hb, hmore⟩ := exists_more h
        obtain ⟨c, behind, t, rfl, hc, rfl, hlater⟩ := exists_last hmore
        rw [encode_cons, encodeChar_three (by omega) (by omega) hb hc,
          encode_of_piecesFrom_none hlater]
        rfl
      split at h
      · obtain ⟨b, behind, rfl, hb, hmore⟩ := exists_more h
        obtain ⟨c, behind, rfl, hc, hmore⟩ := exists_more hmore
        obtain ⟨d, behind, t, rfl, hd, rfl, hlater⟩ := exists_last hmore
        rw [encode_cons, encodeChar_four (by omega) (by omega) hb hc hd,
          encode_of_piecesFrom_none hlater]
        rfl
      · cases t <;> simp at h
termination_by bytes.length

theorem mapM_id_eq_some_iff {α : Type} {found : List (Option α)} {t : List α} :
    found.mapM id = some t ↔ found = t.map some := by
  induction found generalizing t with
  | nil => cases t <;> simp
  | cons first found ih =>
      rw [List.mapM_cons]
      cases first with
      | none => cases t <;> simp
      | some c =>
          cases hothers : found.mapM id with
          | none => cases t <;> simp [← ih, hothers]
          | some others => cases t <;> simp [← ih, hothers]

/-- A byte string reads as a text exactly when it is the text written as bytes. -/
theorem decode?_eq_some_iff {bytes : Bytes} {t : Text} :
    decode? bytes = some t ↔ encode t = bytes := by
  constructor
  · intro h
    exact encode_of_piecesFrom_none (mapM_id_eq_some_iff.1 h)
  · rintro rfl
    exact decode?_encode t

theorem encode_injective : Function.Injective encode := by
  intro a b h
  have hdecoded := congrArg decode? h
  rwa [decode?_encode, decode?_encode, Option.some.injEq] at hdecoded

/-! ## Characters of one byte -/

theorem encodeChar_of_lt {c : Char} (h : c.toNat < 0x80) :
    String.utf8EncodeChar c = [UInt8.ofNat c.toNat] :=
  if_pos (Nat.le_of_lt_succ h)

/-- A byte below 0x80 stands for a character of its own, and is part of no other one. -/
theorem toNat_eq_of_mem_encodeChar {c : Char} {b : UInt8} (h : b ∈ String.utf8EncodeChar c)
    (hb : b.toNat < 0x80) : c.toNat = b.toNat := by
  unfold String.utf8EncodeChar at h
  simp only [show c.val.toNat = c.toNat from rfl] at h
  have hlead : ∀ {n : Nat}, 0x80 ≤ n → n < 256 → b ≠ UInt8.ofNat n := by
    rintro n hlow hhigh rfl
    rw [toNat_ofNat_byte hhigh] at hb
    omega
  split at h
  · next hone =>
    rw [List.mem_singleton.1 h, toNat_ofNat_byte (by omega)]
  -- every byte of a longer character is 0x80 or more
  split at h
  · simp only [List.mem_cons, List.not_mem_nil, or_false] at h
    rcases h with h | h <;> exact absurd h (hlead (by omega) (by omega))
  split at h
  · simp only [List.mem_cons, List.not_mem_nil, or_false] at h
    rcases h with h | h | h <;> exact absurd h (hlead (by omega) (by omega))
  · simp only [List.mem_cons, List.not_mem_nil, or_false] at h
    rcases h with h | h | h | h <;> exact absurd h (hlead (by omega) (by omega))

/-! ## Slashes -/

/-- Whether the next byte is one of a longer character, and what has been read of that rules out a
character of one byte. -/
def Pending.IsLong (p : Pending) : Prop :=
  0x80 ≤ p.low ∧ p.high ≤ 0xBF ∧ (2 ≤ p.code ∨ 0 < p.left ∧ (1 ≤ p.code ∨ 0x90 ≤ p.low))

theorem isLong_of_start {b : Nat} {p : Pending} (h : p ∈ (start b).2) : p.IsLong := by
  unfold start at h
  split at h
  · simp at h
  split at h
  · simp at h
  split at h
  · simp only [Option.mem_def, Option.some.injEq] at h
    subst h
    simp only [Pending.IsLong]
    omega
  split at h
  · simp only [Option.mem_def, Option.some.injEq] at h
    subst h
    simp only [Pending.IsLong]
    split <;> split <;> omega
  split at h
  · simp only [Option.mem_def, Option.some.injEq] at h
    subst h
    simp only [Pending.IsLong]
    split <;> split <;> omega
  · simp at h

theorem isLong_of_step {state : Option Pending} (hstate : ∀ p ∈ state, p.IsLong) {b : Nat}
    {p : Pending} (h : p ∈ (step state b).2) : p.IsLong := by
  cases state with
  | none => exact isLong_of_start h
  | some q =>
      have hq := hstate q rfl
      rw [step] at h
      split at h
      · next hbounds =>
        split at h
        · simp at h
        · simp only [Option.mem_def, Option.some.injEq] at h
          subst h
          unfold Pending.IsLong at hq
          simp only [Pending.IsLong]
          omega
      · exact isLong_of_start h

theorem ofNat_eq_slash {n : Nat} (h : Char.ofNat n = '/') : n = 0x2F := by
  by_cases hvalid : n.isValidChar
  · rw [← toNat_ofNat hvalid, h]
    rfl
  · rw [Char.ofNat, dif_neg hvalid] at h
    exact absurd h (by decide)

theorem eq_of_slash_mem_start {b : Nat} (h : some '/' ∈ (start b).1) : b = 0x2F := by
  unfold start at h
  split at h
  · rw [List.mem_singleton, Option.some.injEq] at h
    exact ofNat_eq_slash h.symm
  -- all other bytes are a fault or begin a longer character
  split at h
  · simp at h
  split at h
  · cases h
  split at h
  · cases h
  split at h
  · cases h
  · simp at h

/-- Only a slash byte settles a slash. -/
theorem eq_of_slash_mem_step {state : Option Pending} (hstate : ∀ p ∈ state, p.IsLong) {b : Nat}
    (h : some '/' ∈ (step state b).1) : b = 0x2F := by
  cases state with
  | none => exact eq_of_slash_mem_start h
  | some q =>
      obtain ⟨_, _, hcode⟩ := hstate q rfl
      rw [step] at h
      split at h
      · split at h
        · next hleft =>
          rw [List.mem_singleton, Option.some.injEq] at h
          have hslash := ofNat_eq_slash h.symm
          omega
        · cases h
      · rcases List.mem_cons.1 h with h | h
        · cases h
        · exact eq_of_slash_mem_start h

theorem slash_mem_of_mem_piecesFrom {state : Option Pending} (hstate : ∀ p ∈ state, p.IsLong)
    {bytes : Bytes} (h : some '/' ∈ piecesFrom state bytes) : 0x2F ∈ bytes := by
  induction bytes generalizing state with
  | nil => cases state <;> simp [piecesFrom] at h
  | cons b bytes ih =>
      rw [piecesFrom] at h
      rcases List.mem_append.1 h with h | h
      · have hb : b = 0x2F := UInt8.toNat_inj.1 (eq_of_slash_mem_step hstate h)
        exact hb ▸ List.mem_cons_self ..
      · exact List.mem_cons_of_mem _ (ih (fun p hp => isLong_of_step hstate hp) h)

theorem slash_mem_of_mem_decodeLossy {bytes : Bytes} (h : '/' ∈ decodeLossy bytes) :
    0x2F ∈ bytes := by
  obtain ⟨piece, hpiece, hslash⟩ := List.mem_map.1 h
  cases piece with
  | none => exact absurd hslash (by decide)
  | some c =>
      rw [Option.getD_some] at hslash
      exact slash_mem_of_mem_piecesFrom (by simp) (hslash ▸ hpiece)

theorem slash_mem_of_mem_encode {t : Text} (h : 0x2F ∈ encode t) : '/' ∈ t := by
  obtain ⟨c, hc, hslash⟩ := List.mem_flatMap.1 h
  have hcode : c.toNat = '/'.toNat := toNat_eq_of_mem_encodeChar hslash (by decide)
  exact Char.toNat_inj.1 hcode ▸ hc

/-- Bytes are read up to a slash and from there on anew, whatever they are. -/
theorem piecesFrom_append_slash {state : Option Pending} (h : ∀ p ∈ state, p.IsLong)
    (before behind : Bytes) :
    piecesFrom state (before ++ 0x2F :: behind) =
      piecesFrom state before ++ some '/' :: piecesFrom none behind := by
  induction before generalizing state with
  | nil =>
      cases state with
      | none => rfl
      | some p =>
          have hlow : ¬ p.low ≤ 0x2F := by
            have hp := (h p rfl).1
            omega
          have hstep : step (some p) (0x2F : UInt8).toNat = ([none, some '/'], none) := by
            rw [show (0x2F : UInt8).toNat = 0x2F from rfl, step, if_neg fun hb => hlow hb.1]
            rfl
          simp only [List.nil_append, piecesFrom, hstep]
          rfl
  | cons b before ih =>
      rw [List.cons_append, piecesFrom, piecesFrom, ih fun p hp => isLong_of_step h hp,
        List.append_assoc]

theorem decodeLossy_append_slash (before behind : Bytes) :
    decodeLossy (before ++ 0x2F :: behind) = decodeLossy before ++ '/' :: decodeLossy behind := by
  rw [decodeLossy, pieces, piecesFrom_append_slash (by simp), List.map_append]
  rfl

/-! ## Faults -/

/-- A byte string that reads without a fault is written as it was. -/
theorem encode_decodeLossy {bytes : Bytes} (h : '\uFFFD' ∉ decodeLossy bytes) :
    encode (decodeLossy bytes) = bytes := by
  rw [← decode?_eq_some_iff, decode?, mapM_id_eq_some_iff, decodeLossy, List.map_map]
  refine (List.map_id _).symm.trans (List.map_congr_left ?_)
  intro piece hpiece
  cases piece with
  | none => exact absurd (List.mem_map.2 ⟨none, hpiece, rfl⟩) h
  | some c => rfl

end FileRouting.Utf8
