import FileRouting.Proofs.RequestOutcome

/-! # Requests that are normal already

Unless escapes are decoded, the normal form of a request is its own normal form: there is no query
left in it to be cut off, and all later stages leave normal paths as they are.  A router therefore
answers a request, its normal form, and this form as a path all alike
(`Router.find_normalized`). -/

namespace FileRouting

namespace Normalization

variable {n : Normalization} {request path : Text}

/-- Without decoding, the characters of a normal form are slashes and those of the target. -/
theorem mem_target_of_normalize (hdecode : n.decodePercent = false)
    (h : n.normalize request = .ok path) {target : Text} (htarget : n.IsTarget request target)
    {c : Char} (hc : c ∈ path) : c = '/' ∨ c ∈ target := by
  obtain ⟨decoded, hbytes, _, rfl, _⟩ := normalize_eq_ok h
  rw [isTarget_iff.1 htarget, bytes, hdecode] at hbytes
  have hdecoded : target = decoded := Utf8.encode_injective (Except.ok.inj hbytes)
  rw [hdecoded]
  exact mem_of_mem_absolute hc

/-- Without decoding, a normal form counts as a whole when it is a request. -/
theorem isTarget_of_normalize (hdecode : n.decodePercent = false)
    (h : n.normalize request = .ok path) : n.IsTarget path path := by
  refine ⟨[], (List.append_nil path).symm, ?_⟩
  split
  · next hstrip =>
    have htarget : n.IsTarget request (n.target request) := isTarget_iff.2 rfl
    obtain ⟨_, _, hcut⟩ := id htarget
    rw [if_pos hstrip] at hcut
    refine ⟨?_, ?_, .inl rfl⟩
    · intro hquery
      rcases mem_target_of_normalize hdecode h htarget hquery with heq | hmem
      · exact absurd heq (by decide)
      · exact hcut.1 hmem
    · intro hfragment
      rcases mem_target_of_normalize hdecode h htarget hfragment with heq | hmem
      · exact absurd heq (by decide)
      · exact hcut.2.1 hmem
  · rfl

theorem normalize_idem (hdecode : n.decodePercent = false) (h : n.normalize request = .ok path) :
    n.normalize path = .ok path := by
  have hnormal := isNormal_of_normalize h
  have hne : path ≠ [] := by
    rintro rfl
    cases hnormal.rooted
  have hstands : n.StandsFor path (Utf8.encode path) := by
    refine ⟨path, isTarget_of_normalize hdecode h, ?_⟩
    rw [if_neg (Bool.eq_false_iff.1 hdecode)]
  exact normalize_of_bytes hnormal hne (bytes_eq_ok_iff.2 hstands)

end Normalization

namespace Router

theorem find_of_normalize {r : Router} (hloaded : r.loaded = true) {request path : Text}
    (h : r.options.normalization.normalize request = .ok path) :
    r.find request = .ok (r.resolve path) := by
  rw [find, Router.table, if_pos hloaded]
  simp only [h]
  rfl

/-- Without decoding, a normal form is left as it is when it is normalized again, and every loaded
router with these options answers the request, its normal form, and the latter as a path alike. -/
theorem find_normalized (n : Normalization) (hdecode : n.decodePercent = false)
    (request path : Text) (h : n.normalize request = .ok path) :
    n.normalize path = .ok path ∧
    ∀ r : Router, r.options.normalization = n → r.loaded = true →
      r.find request = .ok (r.resolve path) ∧ r.find path = .ok (r.resolve path) := by
  have hagain := Normalization.normalize_idem hdecode h
  refine ⟨hagain, ?_⟩
  rintro r rfl hloaded
  exact ⟨find_of_normalize hloaded h, find_of_normalize hloaded hagain⟩

/-- A router that keeps queries and knows `docsRoute` alone. -/
def queryRouter : Router where
  options := { normalization := { stripQuery := false } }
  valid := by decide
  slot := docsRouter.slot
  loaded := true

/-- A question mark that is not cut off stays in the path, however often this is normalized. -/
theorem find_normalized_query :
    queryRouter.options.normalization.normalize "docs//a?b%2F".toList =
      .ok "/docs/a?b%2F".toList ∧
    queryRouter.options.normalization.normalize "/docs/a?b%2F".toList =
      .ok "/docs/a?b%2F".toList ∧
    queryRouter.find "docs//a?b%2F".toList = .ok (some ⟨docsRoute, ["a?b%2F".toList]⟩) ∧
    queryRouter.find "/docs/a?b%2F".toList = .ok (some ⟨docsRoute, ["a?b%2F".toList]⟩) := by
  have hnormal : queryRouter.options.normalization.normalize "docs//a?b%2F".toList =
      .ok "/docs/a?b%2F".toList := by decide +kernel
  have hresolve : queryRouter.resolve "/docs/a?b%2F".toList =
      some ⟨docsRoute, ["a?b%2F".toList]⟩ := by cbv
  obtain ⟨hagain, hrouter⟩ := find_normalized _ rfl _ _ hnormal
  obtain ⟨hrequest, hpath⟩ := hrouter queryRouter rfl rfl
  rw [hresolve] at hrequest hpath
  exact ⟨hnormal, hagain, hrequest, hpath⟩

end Router

end FileRouting
