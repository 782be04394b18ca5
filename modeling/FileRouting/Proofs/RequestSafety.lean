import FileRouting.Proofs.Decomposition
import FileRouting.Proofs.Resolution
import FileRouting.Proofs.Utf8
import FileRouting.Router

/-! # What parameters of a request can hold

A normalized request holds no control or blank byte and no component `..`.  The parameters of the
route that it resolves to consist of whole components of it, so that the same is true of them. -/

namespace FileRouting

namespace Normalization

theorem mem_of_mem_rooted {c : Char} {t : Text} (h : c ∈ rooted t) : c = '/' ∨ c ∈ t := by
  unfold rooted at h
  split at h
  · exact .inr h
  · exact List.mem_cons.1 h

theorem mem_of_mem_squeeze {c : Char} {t : Text} (h : c ∈ squeeze t) : c ∈ t := by
  induction t with
  | nil => exact h
  | cons d t ih =>
      rw [squeeze] at h
      split at h
      · exact List.mem_cons_of_mem d (ih h)
      · rcases List.mem_cons.1 h with rfl | h
        · exact List.mem_cons_self ..
        · exact List.mem_cons_of_mem d (ih h)

theorem mem_of_mem_absolute {n : Normalization} {c : Char} {decoded : Text}
    (h : c ∈ n.absolute decoded) : c = '/' ∨ c ∈ decoded := by
  unfold absolute at h
  split at h
  · exact mem_of_mem_rooted h
  · exact mem_of_mem_rooted (mem_of_mem_squeeze h)

/-- All that is known of a request with a normal form. -/
theorem normalize_eq_ok {n : Normalization} {request path : Text}
    (h : n.normalize request = .ok path) :
    ∃ decoded, n.bytes (n.target request) = .ok (Utf8.encode decoded) ∧
      (∀ b ∈ Utf8.encode decoded, isForbidden b = false) ∧
      path = n.absolute decoded ∧ traverses path = false := by
  unfold normalize at h
  split at h
  · cases h
  split at h
  · cases h
  next bytes hbytes =>
  split at h
  · cases h
  next hallowed =>
  split at h
  · cases h
  next decoded hdecoded =>
  split at h
  · cases h
  next htraverses =>
  cases h
  have hencode : Utf8.encode decoded = bytes := Utf8.decode?_eq_some_iff.1 hdecoded
  refine ⟨decoded, by rw [hencode]; exact hbytes, ?_, rfl, by simpa using htraverses⟩
  intro b hb
  rw [hencode] at hb
  simpa using List.find?_eq_none.1 hallowed b hb

theorem isForbidden_of_normalize {n : Normalization} {request path : Text}
    (h : n.normalize request = .ok path) : ∀ b ∈ Utf8.encode path, isForbidden b = false := by
  obtain ⟨decoded, _, hallowed, rfl, _⟩ := normalize_eq_ok h
  intro b hb
  obtain ⟨c, hc, hbc⟩ := List.mem_flatMap.1 hb
  rcases mem_of_mem_absolute hc with rfl | hc
  · -- the only character that normalization supplies
    have hslash : b = 0x2F := by simpa [String.utf8EncodeChar] using hbc
    rw [hslash]
    rfl
  · exact hallowed b (List.mem_flatMap.2 ⟨c, hc, hbc⟩)

theorem dots_notMem_of_normalize {n : Normalization} {request path : Text}
    (h : n.normalize request = .ok path) : ['.', '.'] ∉ Text.pieces path := by
  obtain ⟨_, _, _, _, htraverses⟩ := normalize_eq_ok h
  intro hdots
  rw [traverses, List.contains_iff_mem.2 hdots] at htraverses
  cases htraverses

end Normalization

/-- A parameter of a match is one of the parts in a decomposition of the path. -/
theorem Match.FirstBest.decomposes {path : Text} {routes : List Route} {m : Match}
    (h : m.FirstBest path routes) : ∃ parts, Decomposes m.route.segments path parts ∧
      ∀ param ∈ m.params, param.2 ∈ parts := by
  obtain ⟨parts, hparts, hcaptures⟩ := Route.decomposes_of_captures? h.captures_eq
  refine ⟨parts, hparts, ?_⟩
  intro param hparam
  have hcaptured : param.2 ∈ m.captures := (List.of_mem_zip hparam).2
  rw [hcaptures] at hcaptured
  exact Segment.mem_of_mem_namedParts hcaptured

namespace Router

/-- A request that is answered has a normal form, which is resolved in the current table. -/
theorem find_eq_ok {r : Router} {request : Text} {result : Option Match}
    (h : r.find request = .ok result) :
    ∃ table path, r.table = .ok table ∧
      r.options.normalization.normalize request = .ok path ∧
      FileRouting.resolve table.routes path = result := by
  unfold find at h
  split at h
  · cases h
  next table htable =>
  split at h
  · cases h
  next path hpath =>
  exact ⟨table, path, htable, hpath, Except.ok.inj h⟩

/-- No parameter of a request that is answered holds a component `..`, a control byte or a blank. -/
theorem find_params_clean (r : Router) (request : Text) (m : Match)
    (h : r.find request = .ok (some m)) :
    ∀ param ∈ m.params, ['.', '.'] ∉ Text.pieces param.2 ∧
      ∀ b ∈ Utf8.encode param.2, 0x20 < b ∧ b ≠ 0x7F := by
  obtain ⟨table, path, _, hpath, hresolve⟩ := find_eq_ok h
  obtain ⟨parts, hparts, hparams⟩ := (firstBest_of_resolve hresolve).decomposes
  intro param hparam
  have hpart : param.2 ∈ parts := hparams param hparam
  constructor
  · intro hdots
    exact Normalization.dots_notMem_of_normalize hpath (hparts.pieces_subset hpart hdots)
  · intro b hb
    obtain ⟨c, hc, hbc⟩ := List.mem_flatMap.1 hb
    have hallowed := Normalization.isForbidden_of_normalize hpath b
      (List.mem_flatMap.2 ⟨c, hparts.subset hpart hc, hbc⟩)
    simpa [Normalization.isForbidden] using hallowed

/-- The route `/docs/[r:**]`. -/
def docsRoute : Route :=
  ⟨⟨[]⟩, "/docs/[r:**]".toList, [.literal "docs".toList, .rest ['r']], none, by cbv⟩

/-- A router that decodes percent escapes and knows `docsRoute` alone. -/
def docsRouter : Router where
  options := { normalization := { decodePercent := true } }
  valid := by decide
  slot := ⟨⟨[docsRoute], none⟩⟩
  loaded := true

/-- A rest holds a slash that the request hides behind a percent escape, and no component `..`. -/
theorem find_params_clean_docs :
    docsRouter.find "/docs//a%2Fb?x".toList = .ok (some ⟨docsRoute, ["a/b".toList]⟩) ∧
    ['.', '.'] ∉ Text.pieces "a/b".toList ∧
      ∀ b ∈ Utf8.encode "a/b".toList, 0x20 < b ∧ b ≠ 0x7F := by
  have hfind : docsRouter.find "/docs//a%2Fb?x".toList =
      .ok (some ⟨docsRoute, ["a/b".toList]⟩) := by cbv
  have hparam : (['r'], "a/b".toList) ∈ Match.params ⟨docsRoute, ["a/b".toList]⟩ := by decide
  exact ⟨hfind, find_params_clean docsRouter _ _ hfind _ hparam⟩

end Router

end FileRouting
