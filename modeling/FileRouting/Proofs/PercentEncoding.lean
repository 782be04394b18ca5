import FileRouting.Proofs.NormalForm
import FileRouting.Proofs.PercentDecoding

/-! # Percent-encoding is undone

A character may be written as escapes, one for each byte that it is encoded as, with hexadecimal
digits in either case.  `Percent.Encodes` relates a text to all the texts that come of it in this
way.  Whichever characters are escaped, decoding gives back the bytes of the text, if percent signs
are among them (`Percent.decodeFrom_of_encodes`).  A normal path is therefore what any of its
encoded forms is normalized to, slashes and dots included: all the stages behind the decoder only
see the path itself. -/

namespace FileRouting

namespace Percent

/-- The ways to write bytes as escapes, one behind the other. -/
inductive Escapes : Bytes → Text → Prop where
  | nil : Escapes [] []
  | cons {b : UInt8} {high low : Char} {bytes : Bytes} {behind : Text}
      (hhigh : hexValue? high.toNat = some (b.toNat / 16))
      (hlow : hexValue? low.toNat = some (b.toNat % 16)) (h : Escapes bytes behind) :
      Escapes (b :: bytes) ('%' :: high :: low :: behind)

/-- The ways to write a text with some of its characters escaped, the reserved ones at least. -/
inductive Encodes (reserved : Char → Prop) : Text → Text → Prop where
  | nil : Encodes reserved [] []
  | kept {c : Char} {t encoded : Text} (hc : ¬ reserved c) (h : Encodes reserved t encoded) :
      Encodes reserved (c :: t) (c :: encoded)
  | escaped {c : Char} {t escapes encoded : Text}
      (hc : Escapes (String.utf8EncodeChar c) escapes) (h : Encodes reserved t encoded) :
      Encodes reserved (c :: t) (escapes ++ encoded)

/-! ## Decoding -/

theorem lt_of_hexValue? {code value : Nat} (h : hexValue? code = some value) : code < 0x80 := by
  unfold hexValue? at h
  split at h
  · omega
  split at h
  · omega
  split at h
  · omega
  · cases h

theorem encode_escape {high low : Char} {h l : Nat} (hhigh : hexValue? high.toNat = some h)
    (hlow : hexValue? low.toNat = some l) (behind : Text) :
    Utf8.encode ('%' :: high :: low :: behind) =
      0x25 :: UInt8.ofNat high.toNat :: UInt8.ofNat low.toNat :: Utf8.encode behind := by
  rw [Utf8.encode_cons, Utf8.encode_cons, Utf8.encode_cons,
    Utf8.encodeChar_of_lt (lt_of_hexValue? hhigh), Utf8.encodeChar_of_lt (lt_of_hexValue? hlow)]
  rfl

theorem decodes_escapes {bytes : Bytes} {escapes : Text} (h : Escapes bytes escapes) :
    Decodes (Utf8.encode escapes) bytes := by
  induction h with
  | nil => exact .nil
  | cons hhigh hlow _ ih =>
      have hhigh' := lt_of_hexValue? hhigh
      have hlow' := lt_of_hexValue? hlow
      rw [encode_escape hhigh hlow]
      apply Decodes.escape _ _ ih
      · rwa [Utf8.toNat_ofNat_byte (by omega)]
      · rwa [Utf8.toNat_ofNat_byte (by omega)]

theorem decodes_of_encodes {reserved : Char → Prop} (hpercent : reserved '%') {t encoded : Text}
    (h : Encodes reserved t encoded) : Decodes (Utf8.encode encoded) (Utf8.encode t) := by
  induction h with
  | nil => exact .nil
  | @kept c t encoded hc _ ih =>
      rw [Utf8.encode_cons, Utf8.encode_cons]
      refine (decodes_self ?_).append ih
      rintro b hb rfl
      have hcode := Utf8.toNat_eq_of_mem_encodeChar hb (by decide)
      have hsign : c = '%' := Char.toNat_inj.1 hcode
      exact hc (hsign ▸ hpercent)
  | escaped hc _ ih =>
      rw [Utf8.encode, List.flatMap_append, Utf8.encode_cons]
      exact (decodes_escapes hc).append ih

/-- Whichever characters are escaped, the bytes of the text come back. -/
theorem decodeFrom_of_encodes {reserved : Char → Prop} (hpercent : reserved '%') {t encoded : Text}
    (h : Encodes reserved t encoded) (index : Nat) :
    decodeFrom index (Utf8.encode encoded) = .ok (Utf8.encode t) :=
  decodeFrom_of_decodes (decodes_of_encodes hpercent h) index

/-! ## Reserved characters -/

section Reserved

variable {c : Char} (hsign : c ≠ '%') (hdigit : hexValue? c.toNat = none)

include hsign hdigit

theorem notMem_of_escapes {bytes : Bytes} {escapes : Text} (h : Escapes bytes escapes) :
    c ∉ escapes := by
  have hother : ∀ {digit : Char} {value : Nat}, hexValue? digit.toNat = some value → c ≠ digit := by
    rintro digit value hvalue rfl
    rw [hdigit] at hvalue
    cases hvalue
  induction h with
  | nil => exact List.not_mem_nil
  | cons hhigh hlow _ ih => simp [hsign, hother hhigh, hother hlow, ih]

theorem notMem_of_encodes {reserved : Char → Prop} (hc : reserved c) {t encoded : Text}
    (h : Encodes reserved t encoded) : c ∉ encoded := by
  induction h with
  | nil => exact List.not_mem_nil
  | kept hkept _ ih =>
      rw [List.mem_cons, not_or]
      refine ⟨?_, ih⟩
      rintro rfl
      exact hkept hc
  | escaped hescapes _ ih =>
      rw [List.mem_append, not_or]
      exact ⟨notMem_of_escapes hsign hdigit hescapes, ih⟩

end Reserved

end Percent

namespace Normalization

/-- The characters that mean something else in a request unless they are escaped. -/
def Reserved (n : Normalization) (c : Char) : Prop :=
  c = '%' ∨ n.stripQuery = true ∧ (c = '?' ∨ c = '#')

instance (n : Normalization) (c : Char) : Decidable (n.Reserved c) :=
  inferInstanceAs (Decidable (_ ∨ _))

/-- With the reserved characters escaped, there is no query to be cut off. -/
theorem target_of_encodes {n : Normalization} {path request : Text}
    (h : Percent.Encodes n.Reserved path request) : n.target request = request := by
  rw [target]
  split
  · next hstrip =>
    have hquery : '?' ∉ request :=
      Percent.notMem_of_encodes (by decide) (by decide) (.inr ⟨hstrip, .inl rfl⟩) h
    have hfragment : '#' ∉ request :=
      Percent.notMem_of_encodes (by decide) (by decide) (.inr ⟨hstrip, .inr rfl⟩) h
    rw [beforeQuery, List.takeWhile_eq_self_iff]
    intro c hc
    have hne : c ≠ '?' := fun heq => hquery (heq ▸ hc)
    have hne' : c ≠ '#' := fun heq => hfragment (heq ▸ hc)
    simp [hne, hne']
  · rfl

/-- Every way to write a normal path with characters escaped is normalized to the path. -/
theorem normalize_encodes (n : Normalization) (hdecode : n.decodePercent = true)
    (path request : Text) (hpath : n.IsNormal path)
    (h : Percent.Encodes n.Reserved path request) : n.normalize request = .ok path := by
  have hdecoded : Percent.decode (Utf8.encode request) = .ok (Utf8.encode path) :=
    Percent.decodeFrom_of_encodes (.inl rfl) h 0
  have hne : request ≠ [] := by
    rintro rfl
    -- an empty request is the encoded form of the empty path only
    have hempty : Utf8.encode path = Utf8.encode [] := (Except.ok.inj hdecoded).symm
    have hrooted := hpath.rooted
    rw [Utf8.encode_injective hempty] at hrooted
    cases hrooted
  refine normalize_of_bytes hpath hne ?_
  rw [target_of_encodes h, bytes, if_pos hdecode, hdecoded]

def decoding : Normalization := { decodePercent := true }

/-- The path `/a?/é%` with the slash in front, the question mark, the accented letter and the
percent sign escaped, in digits of either case. -/
theorem normalize_encodes_accent :
    decoding.IsNormal ['/', 'a', '?', '/', 'é', '%'] ∧
    Percent.Encodes decoding.Reserved ['/', 'a', '?', '/', 'é', '%'] "%2fa%3F/%c3%A9%25".toList ∧
    decoding.normalize "%2fa%3F/%c3%A9%25".toList = .ok ['/', 'a', '?', '/', 'é', '%'] := by
  have hslash : Percent.Escapes (String.utf8EncodeChar '/') ['%', '2', 'f'] :=
    .cons (by decide) (by decide) .nil
  have hquery : Percent.Escapes (String.utf8EncodeChar '?') ['%', '3', 'F'] :=
    .cons (by decide) (by decide) .nil
  have haccent : Percent.Escapes (String.utf8EncodeChar 'é') ['%', 'c', '3', '%', 'A', '9'] :=
    .cons (by decide) (by decide) (.cons (by decide) (by decide) .nil)
  have hsign : Percent.Escapes (String.utf8EncodeChar '%') ['%', '2', '5'] :=
    .cons (by decide) (by decide) .nil
  have hencodes : Percent.Encodes decoding.Reserved ['/', 'a', '?', '/', 'é', '%']
      "%2fa%3F/%c3%A9%25".toList :=
    .escaped hslash (.kept (by decide) (.escaped hquery (.kept (by decide)
      (.escaped haccent (.escaped hsign .nil)))))
  have hpath : decoding.IsNormal ['/', 'a', '?', '/', 'é', '%'] :=
    ⟨rfl, by decide +kernel, by decide, fun _ => by decide⟩
  exact ⟨hpath, hencodes, normalize_encodes decoding rfl _ _ hpath hencodes⟩

end Normalization

end FileRouting
