import FileRouting.Proofs.WellFormed

/-! # Components of logical paths

A logical path that is made from a directory is written from components that are neither empty nor
contain a slash, so that they can be read back from it.  The root has none, and its route a single
empty segment; `LogicalPath.parts` gives it one empty component accordingly, which leaves one
component for each segment in all cases. -/

namespace FileRouting

namespace Text

theorem slash_notMem_of_mem_components {t part : Text} (h : part ∈ t.components) : '/' ∉ part :=
  notMem_of_mem_pieces (List.mem_of_mem_filter h)

theorem components_slashed {parts : List Text} (hne : ∀ part ∈ parts, part ≠ [])
    (hslash : ∀ part ∈ parts, '/' ∉ part) : components (slashed parts) = parts := by
  rw [components, pieces_slashed_of_notMem hslash, List.filter_cons_of_neg (by simp)]
  simpa using hne

end Text

namespace LogicalPath

/-- The components of a logical path, of which the root has a single empty one. -/
def parts (path : Text) : List Text :=
  match path.components with
  | [] => [[]]
  | components => components

theorem parts_of_ne_nil {path : Text} (h : path.components ≠ []) : parts path = path.components := by
  unfold parts
  split
  · next hnil => exact absurd hnil h
  · rfl

theorem slash_notMem_of_mem_parts {path part : Text} (h : part ∈ parts path) : '/' ∉ part := by
  unfold parts at h
  split at h
  · rw [List.mem_singleton.1 h]
    simp
  · exact Text.slash_notMem_of_mem_components h

theorem components_ofDirectory (directory : Text) :
    (ofDirectory directory).components = visible directory := by
  have hmem : ∀ part ∈ visible directory, part ∈ (dropStart directory).components :=
    fun part hpart => List.mem_of_mem_filter hpart
  unfold ofDirectory
  split
  · next hnil =>
    rw [hnil]
    rfl
  · exact Text.components_slashed (fun part hpart => Text.ne_nil_of_mem_components (hmem part hpart))
      fun part hpart => Text.slash_notMem_of_mem_components (hmem part hpart)

theorem ofDirectory_eq_iff_visible {a b : Text} :
    ofDirectory a = ofDirectory b ↔ visible a = visible b := by
  constructor
  · intro h
    rw [← components_ofDirectory a, h, components_ofDirectory]
  · intro h
    rw [ofDirectory, ofDirectory, h]

/-- Written with a slash before each of its components, a logical path of a directory is itself. -/
theorem slashed_parts_ofDirectory (directory : Text) :
    Text.slashed (parts (ofDirectory directory)) = ofDirectory directory := by
  rw [parts, components_ofDirectory, ofDirectory]
  split <;> simp_all

end LogicalPath

namespace Segment

theorem read?_nil : read? [] = some (literal []) := rfl

/-- Each segment of a route is read from a component of its logical path. -/
theorem forall₂_read?_parts {path : Text} {segments : List Segment}
    (h : ofLogicalPath path = .ok segments) :
    List.Forall₂ (fun raw s => read? raw = some s) (LogicalPath.parts path) segments := by
  obtain ⟨declared, hread, rfl, _⟩ := ofLogicalPath_eq_ok h
  unfold LogicalPath.parts
  split
  · next hnil =>
    rw [hnil] at hread
    cases hread
    exact .cons read?_nil .nil
  · next hne =>
    cases declared with
    | nil => exact absurd (List.forall₂_nil_right_iff.1 hread) hne
    | cons s declared => exact hread

end Segment

namespace Route

theorem forall₂_read?_parts (r : Route) :
    List.Forall₂ (fun raw s => Segment.read? raw = some s) (LogicalPath.parts r.canonical)
      r.segments :=
  Segment.forall₂_read?_parts r.segments_eq

theorem exists_read?_of_mem {r : Route} {s : Segment} (h : s ∈ r.segments) :
    ∃ raw, Segment.read? raw = some s := by
  obtain ⟨raw, _, hread⟩ := exists_of_mem_right r.forall₂_read?_parts h
  exact ⟨raw, hread⟩

/-- Whether a route is made from the directory of its file, with or without a layout. -/
def FromDirectory (r : Route) : Prop :=
  ∃ engine directory layout,
    (ofDirectory engine r.source directory).map (·.setLayout layout) = .ok r

variable {engine : Engine} {source : Disk.Path} {path : Text}

/-- Routes are made from logical paths, and only those with a pattern that the engine takes. -/
theorem ofLogicalPath_eq_ok_iff {r : Route} :
    ofLogicalPath engine source path = .ok r ↔
      r.source = source ∧ r.canonical = path ∧ r.layout = none ∧ engine.Takes r.pattern.source := by
  obtain ⟨madeFrom, canonical, segments, layout, hsegments⟩ := r
  unfold ofLogicalPath
  split
  · next found hfound =>
    simp only [map_eq_ok_iff, Pattern.compile_eq_ok_iff hfound, mk.injEq]
    constructor
    · rintro ⟨_, ⟨rfl, htakes⟩, rfl, rfl, rfl, rfl⟩
      exact ⟨rfl, rfl, rfl, htakes⟩
    · rintro ⟨rfl, rfl, rfl, htakes⟩
      obtain rfl := Except.ok.inj (hfound.symm.trans hsegments)
      exact ⟨_, ⟨rfl, htakes⟩, rfl, rfl, rfl, rfl⟩
  · next e hfound =>
    simp only [reduceCtorEq, false_iff]
    rintro ⟨_, rfl, _⟩
    cases hfound.symm.trans hsegments

theorem exists_ofLogicalPath_iff :
    (∃ r, ofLogicalPath engine source path = .ok r) ↔ ∃ segments,
      Segment.ofLogicalPath path = .ok segments ∧
        engine.Takes (Pattern.ofSegments segments).source := by
  simp only [ofLogicalPath_eq_ok_iff]
  constructor
  · rintro ⟨r, _, rfl, _, htakes⟩
    exact ⟨r.segments, r.segments_eq, htakes⟩
  · rintro ⟨segments, h, htakes⟩
    exact ⟨⟨source, path, segments, none, h⟩, rfl, rfl, rfl, htakes⟩

/-- A route is made from each directory that has its logical path, if the layout and the engine are
left open. -/
theorem exists_ofDirectory_iff {r : Route} {directory : Text} :
    (∃ engine layout,
        (ofDirectory engine r.source directory).map (·.setLayout layout) = .ok r) ↔
      r.canonical = LogicalPath.ofDirectory directory := by
  constructor
  · rintro ⟨engine, layout, h⟩
    obtain ⟨made, hmade, rfl⟩ := map_eq_ok_iff.1 h
    exact (ofLogicalPath_eq_ok_iff.1 hmade).2.1
  · intro h
    have hmade : ofDirectory .unlimited r.source directory = .ok (r.setLayout none) :=
      ofLogicalPath_eq_ok_iff.2 ⟨rfl, h, rfl, rfl⟩
    refine ⟨.unlimited, r.layout, ?_⟩
    rw [hmade]
    rfl

theorem FromDirectory.slashed_parts {r : Route} (h : r.FromDirectory) :
    Text.slashed (LogicalPath.parts r.canonical) = r.canonical := by
  obtain ⟨engine, directory, hmade⟩ := h
  rw [exists_ofDirectory_iff.1 ⟨engine, hmade⟩]
  exact LogicalPath.slashed_parts_ofDirectory directory

end Route

end FileRouting
