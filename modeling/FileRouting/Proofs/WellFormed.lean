import FileRouting.Proofs.Lists
import FileRouting.Proofs.Pieces
import FileRouting.Route

/-! # Segments of logical paths

What reading guarantees of the segments of a route, whichever logical path it has: fixed text stays
within its component, a choice offers something, and no value of it leaves its component either. -/

namespace FileRouting

namespace Segment

/-- What holds of every segment that a component of a logical path declares. -/
def WellFormed : Segment → Prop
  | literal text => '/' ∉ text
  | choice _ values => values ≠ [] ∧ ∀ value ∈ values, isValue value
  | number _ | wildcard _ | rest _ => True

theorem slash_notMem_of_isValue {value : Text} (h : isValue value) : '/' ∉ value := by
  simp only [isValue, Bool.and_eq_true, List.all_eq_true] at h
  intro hmem
  have hslash := h.2 '/' hmem
  simp at hslash

theorem wellFormed_of_readParameter? {name : Text} {modifier : Option Text} {s : Segment}
    (h : readParameter? name modifier = some s) : s.WellFormed := by
  unfold readParameter? at h
  split at h
  · cases h
    trivial
  · next values =>
    obtain ⟨offered, hread, rfl⟩ := Option.map_eq_some_iff.1 h
    -- splitting at the bars yields one value at least
    simp only [readValues?, Option.ite_none_right_eq_some, Option.some.injEq] at hread
    obtain ⟨hall, rfl⟩ := hread
    exact ⟨List.splitOn_ne_nil '|' values, List.all_eq_true.1 hall⟩
  · split at h
    · cases h
      trivial
    split at h
    · cases h
      trivial
    split at h
    · cases h
      trivial
    · cases h

theorem wellFormed_of_read? {raw : Text} {s : Segment} (hraw : '/' ∉ raw)
    (h : read? raw = some s) : s.WellFormed := by
  unfold read? at h
  split at h
  · cases h
  split at h
  · cases h
    exact hraw
  · obtain ⟨name, _, hparameter⟩ := Option.bind_eq_some_iff.1 h
    exact wellFormed_of_readParameter? hparameter

theorem kind_ne_literal_of_name? {s : Segment} {name : Text} (h : s.name? = some name) :
    s.kind ≠ .literal := by
  cases s with
  | literal text => cases h
  | choice _ _ | number _ | wildcard _ | rest _ => simp [kind]

theorem name?_of_readParameter? {name : Text} {modifier : Option Text} {s : Segment}
    (h : readParameter? name modifier = some s) : s.name? = some name := by
  unfold readParameter? at h
  split at h
  · cases h
    rfl
  · obtain ⟨values, _, rfl⟩ := Option.map_eq_some_iff.1 h
    rfl
  · split at h
    · cases h
      rfl
    split at h
    · cases h
      rfl
    split at h
    · cases h
      rfl
    · cases h

theorem eq_of_bracketed? {raw body : Text} (h : bracketed? raw = some body) :
    raw = '[' :: body ++ [']'] := by
  unfold bracketed? at h
  split at h
  · next t =>
    split at h
    · next hlast =>
      cases h
      rw [List.cons_append, List.dropLast_append_getLast? _ hlast]
    · cases h
  · cases h

/-- A component is literal text or declares a parameter in brackets. -/
theorem eq_literal_or_bracketed_of_read? {raw : Text} {s : Segment} (h : read? raw = some s) :
    s = literal raw ∨ s.kind ≠ .literal ∧ ∃ body, raw = '[' :: body ++ [']'] := by
  unfold read? at h
  split at h
  · cases h
  split at h
  · cases h
    exact .inl rfl
  · next body hbody =>
    obtain ⟨name, _, hparameter⟩ := Option.bind_eq_some_iff.1 h
    exact .inr ⟨kind_ne_literal_of_name? (name?_of_readParameter? hparameter), body,
      eq_of_bracketed? hbody⟩

theorem literal_of_read? {raw : Text} {s : Segment} (h : read? raw = some s)
    (hkind : s.kind = .literal) : s = literal raw :=
  (eq_literal_or_bracketed_of_read? h).resolve_right fun hparameter => hparameter.1 hkind

theorem bracketed_of_read? {raw : Text} {s : Segment} (h : read? raw = some s)
    (hkind : s.kind ≠ .literal) : ∃ body, raw = '[' :: body ++ [']'] := by
  rcases eq_literal_or_bracketed_of_read? h with rfl | ⟨_, hbody⟩
  · exact absurd rfl hkind
  · exact hbody

theorem read_eq_ok_iff {route raw : Text} {s : Segment} :
    read route raw = .ok s ↔ read? raw = some s := by
  unfold read
  cases read? raw <;> simp

theorem read_eq_error_iff {route raw : Text} {e : SegmentError} :
    read route raw = .error e ↔ read? raw = none ∧ e = .invalidParameter raw route := by
  unfold read
  cases read? raw <;> simp [eq_comm]

theorem orRoot_ne_nil (segments : List Segment) : orRoot segments ≠ [] := by
  cases segments <;> simp [orRoot]

theorem wellFormed_orRoot {segments : List Segment} (h : ∀ s ∈ segments, s.WellFormed) :
    ∀ s ∈ orRoot segments, s.WellFormed := by
  cases segments with
  | nil => simp [orRoot, WellFormed]
  | cons s segments => exact h

/-- A logical path that is a route has been read component by component, and no name is repeated. -/
theorem ofLogicalPath_eq_ok {path : Text} {segments : List Segment}
    (h : ofLogicalPath path = .ok segments) :
    ∃ declared, List.Forall₂ (fun raw s => read? raw = some s) path.components declared ∧
      segments = orRoot declared ∧ firstRepeated? [] (names segments) = none := by
  unfold ofLogicalPath at h
  split at h
  · next declared hread =>
    unfold distinct at h
    split at h
    · next hdistinct =>
      cases h
      exact ⟨declared, (mapM_eq_ok_iff.1 hread).imp fun _ _ => read_eq_ok_iff.1, rfl, hdistinct⟩
    · cases h
  · cases h

theorem wellFormed_of_ofLogicalPath {path : Text} {segments : List Segment}
    (h : ofLogicalPath path = .ok segments) : ∀ s ∈ segments, s.WellFormed := by
  obtain ⟨declared, hread, rfl, _⟩ := ofLogicalPath_eq_ok h
  apply wellFormed_orRoot
  intro s hs
  obtain ⟨raw, hraw, hsegment⟩ := exists_of_mem_right hread hs
  have hpiece : raw ∈ path.pieces := List.mem_of_mem_filter hraw
  exact wellFormed_of_read? (Text.notMem_of_mem_pieces hpiece) hsegment

end Segment

namespace Pattern

variable {engine : Engine} {path : Text} {segments : List Segment}

/-- Reading has found no repeated name, so that only the engine decides. -/
theorem compile_eq_ok_iff (h : Segment.ofLogicalPath path = .ok segments) {p : Pattern} :
    compile engine segments path = .ok p ↔ p = ofSegments segments ∧ engine.Takes p.source := by
  obtain ⟨_, _, _, hdistinct⟩ := Segment.ofLogicalPath_eq_ok h
  simp only [compile, Segment.distinct, hdistinct, Engine.Takes]
  cases hrefusal : engine.refusal? (ofSegments segments).source with
  | none =>
      simp only [Except.ok.injEq]
      constructor
      · rintro rfl
        exact ⟨rfl, hrefusal⟩
      · exact fun hp => hp.1.symm
  | some cause =>
      simp only [reduceCtorEq, false_iff, not_and]
      rintro rfl htakes
      cases hrefusal.symm.trans htakes

theorem compile_eq_error_iff (h : Segment.ofLogicalPath path = .ok segments) {e : SegmentError} :
    compile engine segments path = .error e ↔
      ∃ cause, engine.refusal? (ofSegments segments).source = some cause ∧
        e = .refusedPattern path cause := by
  obtain ⟨_, _, _, hdistinct⟩ := Segment.ofLogicalPath_eq_ok h
  simp only [compile, Segment.distinct, hdistinct]
  cases engine.refusal? (ofSegments segments).source <;> simp [eq_comm]

end Pattern

namespace Route

theorem wellFormed (r : Route) : ∀ s ∈ r.segments, s.WellFormed :=
  Segment.wellFormed_of_ofLogicalPath r.segments_eq

theorem segments_ne_nil (r : Route) : r.segments ≠ [] := by
  obtain ⟨declared, _, heq, _⟩ := Segment.ofLogicalPath_eq_ok r.segments_eq
  rw [heq]
  exact Segment.orRoot_ne_nil declared

theorem segments_eq_of_canonical_eq {a b : Route} (h : a.canonical = b.canonical) :
    a.segments = b.segments := by
  have hsegments := a.segments_eq
  rw [h, b.segments_eq] at hsegments
  exact (Except.ok.inj hsegments).symm

end Route

end FileRouting
