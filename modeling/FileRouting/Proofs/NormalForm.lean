import FileRouting.Proofs.RequestSafety

/-! # Normal paths

What normalization makes of a request, said of the path alone: it starts with a slash, holds no
control or blank byte and no component `..`, and repeats no slash unless that is allowed
(`Normalization.IsNormal`).  Normalization yields such paths only (`isNormal_of_normalize`), and a
request whose bytes are decoded to those of a normal path has this path as its normal form
(`normalize_of_bytes`), because the later stages leave it as it is. -/

namespace FileRouting.Normalization

/-! ## Repeated slashes -/

theorem head?_squeeze (t : Text) : (squeeze t).head? = t.head? := by
  induction t with
  | nil => rfl
  | cons c t ih =>
      rw [squeeze]
      split
      · next h => rw [ih, h.2, List.head?_cons, h.1]
      · rfl

theorem not_infix_squeeze (t : Text) : ¬ ['/', '/'] <:+: squeeze t := by
  induction t with
  | nil => decide
  | cons c t ih =>
      rw [squeeze]
      split
      · exact ih
      · next hkept =>
        rw [List.infix_cons_iff, not_or]
        refine ⟨?_, ih⟩
        -- a slash is kept only where no slash follows
        rintro ⟨behind, heq⟩
        simp only [List.cons_append, List.nil_append, List.cons.injEq] at heq
        have hhead := head?_squeeze t
        rw [← heq.2, List.head?_cons] at hhead
        exact hkept ⟨heq.1.symm, hhead.symm⟩

theorem squeeze_eq_self {t : Text} (h : ¬ ['/', '/'] <:+: t) : squeeze t = t := by
  induction t with
  | nil => rfl
  | cons c t ih =>
      rw [List.infix_cons_iff, not_or] at h
      rw [squeeze, ih h.2]
      refine if_neg ?_
      rintro ⟨rfl, hhead⟩
      obtain ⟨behind, rfl⟩ := List.head?_eq_some_iff.1 hhead
      exact h.1 ⟨behind, rfl⟩

/-! ## The slash in front -/

theorem head?_rooted (t : Text) : (rooted t).head? = some '/' := by
  unfold rooted
  split <;> rfl

theorem rooted_eq_self {t : Text} (h : t.head? = some '/') : rooted t = t := by
  obtain ⟨behind, rfl⟩ := List.head?_eq_some_iff.1 h
  rfl

/-! ## Normal paths -/

/-- What holds of every path that requests are normalized to. -/
structure IsNormal (n : Normalization) (path : Text) : Prop where
  rooted : path.head? = some '/'
  allowed : ∀ b ∈ Utf8.encode path, isForbidden b = false
  inside : ['.', '.'] ∉ Text.pieces path
  squeezed : n.allowDuplicateSlash = false → ¬ ['/', '/'] <:+: path

variable {n : Normalization} {path : Text}

theorem isNormal_of_normalize {request : Text} (h : n.normalize request = .ok path) :
    n.IsNormal path where
  rooted := by
    obtain ⟨decoded, _, _, rfl, _⟩ := normalize_eq_ok h
    rw [absolute]
    split
    · exact head?_rooted decoded
    · rw [head?_squeeze, head?_rooted]
  allowed := isForbidden_of_normalize h
  inside := dots_notMem_of_normalize h
  squeezed := by
    intro hduplicate
    obtain ⟨decoded, _, _, rfl, _⟩ := normalize_eq_ok h
    rw [absolute, hduplicate]
    exact not_infix_squeeze _

theorem IsNormal.absolute_eq (h : n.IsNormal path) : n.absolute path = path := by
  rw [absolute, rooted_eq_self h.rooted]
  split
  · rfl
  · next hduplicate => exact squeeze_eq_self (h.squeezed (by simpa using hduplicate))

/-- A request that is decoded to a normal path is normalized to it. -/
theorem normalize_of_bytes (h : n.IsNormal path) {request : Text} (hne : request ≠ [])
    (hbytes : n.bytes (n.target request) = .ok (Utf8.encode path)) :
    n.normalize request = .ok path := by
  have hallowed : (Utf8.encode path).find? isForbidden = none := by
    rw [List.find?_eq_none]
    intro b hb
    rw [h.allowed b hb]
    exact Bool.false_ne_true
  have hinside : traverses path = false := by
    rw [traverses, List.contains_eq_mem, decide_eq_false h.inside]
  rw [normalize, if_neg hne, hbytes]
  simp only [hallowed, Utf8.decode?_encode, h.absolute_eq, hinside]
  rfl

/-- No rest stops short in a normal path, because it holds no line feed. -/
theorem IsNormal.newline_notMem (h : n.IsNormal path) : '\n' ∉ path := by
  intro hmem
  have hbyte : (0x0A : UInt8) ∈ Utf8.encode path := List.mem_flatMap.2 ⟨'\n', hmem, by decide⟩
  have hforbidden := h.allowed _ hbyte
  revert hforbidden
  decide

end FileRouting.Normalization
