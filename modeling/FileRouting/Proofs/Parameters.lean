import FileRouting.Proofs.Decomposition
import FileRouting.Proofs.Resolution

/-! # Parameters by name

The captures of a route go with its names one by one, and no name stands twice.  The parameters of a
match therefore say of every segment what it has taken, and put back in place they give the path
again.  `Segment.lookup_of_mem_zip` is the step from positions to names. -/

namespace FileRouting

namespace Segment

theorem firstRepeated?_cons_eq_none_iff {before names : List Text} {first : Text} :
    firstRepeated? before (first :: names) = none ↔
      first ∉ before ∧ firstRepeated? (first :: before) names = none := by
  rw [firstRepeated?]
  split
  · next hmem => simp [hmem]
  · next hmem => simp [hmem]

theorem firstRepeated?_eq_none_iff {before names : List Text} :
    firstRepeated? before names = none ↔ names.Nodup ∧ ∀ name ∈ names, name ∉ before := by
  induction names generalizing before with
  | nil => simp [firstRepeated?]
  | cons name names ih =>
      rw [firstRepeated?_cons_eq_none_iff, ih, List.nodup_cons, List.forall_mem_cons]
      simp only [List.mem_cons, not_or]
      constructor
      · rintro ⟨hmem, hnodup, hnew⟩
        exact ⟨⟨fun h => (hnew name h).1 rfl, hnodup⟩, hmem, fun other h => (hnew other h).2⟩
      · rintro ⟨⟨hname, hnodup⟩, hmem, hnew⟩
        exact ⟨hmem, hnodup, fun other h => ⟨fun heq => hname (heq ▸ h), hnew other h⟩⟩

theorem names_eq_nil_of_literals {segments : List Segment}
    (h : ∀ s ∈ segments, s.kind = .literal) : names segments = [] := by
  rw [names, List.filterMap_eq_nil_iff]
  intro s hs
  rw [← Option.isNone_iff_eq_none, ← Option.not_isSome, isSome_name?, h s hs]
  rfl

/-- The text of a segment in a path, when the parameters have the given texts. -/
def fill? (params : List (Text × Text)) : Segment → Option Text
  | literal text => some text
  | choice name _ | number name | wildcard name | rest name => params.lookup name

variable {segments : List Segment} {parts : List Text}

theorem length_names_of_takes (h : List.Forall₂ Takes segments parts) :
    (names segments).length = (namedParts segments parts).length := by
  induction h with
  | nil => rfl
  | @cons s part segments parts _ _ ih =>
      rw [namedParts_cons, names, List.filterMap_cons]
      cases s with
      | literal text => exact ih
      | choice _ _ | number _ | wildcard _ | rest _ => exact congrArg Nat.succ ih

theorem mem_zip_names {s : Segment} {part name : Text} (h : (s, part) ∈ segments.zip parts)
    (hname : s.name? = some name) :
    (name, part) ∈ (names segments).zip (namedParts segments parts) := by
  induction segments generalizing parts with
  | nil => cases h
  | cons first segments ih =>
      cases parts with
      | nil => cases h
      | cons front parts =>
          rw [namedParts_cons, names, List.filterMap_cons]
          rw [List.zip_cons_cons] at h
          rcases List.mem_cons.1 h with heq | h
          · cases heq
            cases s with
            | literal text => cases hname
            | choice _ _ | number _ | wildcard _ | rest _ =>
                cases hname
                exact List.mem_cons_self ..
          · have hlater := ih h
            cases first with
            | literal text => exact hlater
            | choice _ _ | number _ | wildcard _ | rest _ => exact List.mem_cons_of_mem _ hlater

/-- A parameter has the part at the position of its segment, since no other segment has its name. -/
theorem lookup_of_mem_zip (htakes : List.Forall₂ Takes segments parts)
    (hnodup : (names segments).Nodup) {s : Segment} {part name : Text}
    (h : (s, part) ∈ segments.zip parts) (hname : s.name? = some name) :
    ((names segments).zip (namedParts segments parts)).lookup name = some part := by
  apply lookup_eq_some_of_mem _ (mem_zip_names h hname)
  rwa [List.map_fst_zip (Nat.le_of_eq (length_names_of_takes htakes))]

theorem map_fill?_eq {params : List (Text × Text)} (htakes : List.Forall₂ Takes segments parts)
    (h : ∀ s part name, (s, part) ∈ segments.zip parts → s.name? = some name →
      params.lookup name = some part) :
    segments.map (fill? params) = parts.map some := by
  induction htakes with
  | nil => rfl
  | @cons s part segments parts hpart _ ih =>
      have hlater := ih fun s part name hmem => h s part name (List.mem_cons_of_mem _ hmem)
      rw [List.map_cons, List.map_cons, hlater]
      congr 1
      cases s with
      | literal text =>
          cases hpart
          rfl
      | choice name _ | number name | wildcard name | rest name =>
          exact h _ part name (List.mem_cons_self ..) rfl

theorem exists_mem_zip_of_takes (htakes : List.Forall₂ Takes segments parts) {s : Segment}
    (hs : s ∈ segments) : ∃ part, (s, part) ∈ segments.zip parts ∧ s.Takes part := by
  induction htakes with
  | nil => cases hs
  | @cons first part segments parts hpart _ ih =>
      rw [List.zip_cons_cons]
      rcases List.mem_cons.1 hs with rfl | hs
      · exact ⟨part, List.mem_cons_self .., hpart⟩
      · obtain ⟨later, hmem, htake⟩ := ih hs
        exact ⟨later, List.mem_cons_of_mem _ hmem, htake⟩

/-- A name that is given to one parameter only belongs to one position. -/
theorem existsUnique_of_nodup (hnodup : (names segments).Nodup) {name : Text}
    (h : name ∈ names segments) :
    ∃! i : Nat, segments[i]?.bind name? = some name := by
  obtain ⟨s, hs, hname⟩ := List.mem_filterMap.1 h
  obtain ⟨i, hi, rfl⟩ := List.mem_iff_getElem.1 hs
  have hpairwise := List.pairwise_filterMap.1 hnodup
  rw [List.pairwise_iff_getElem] at hpairwise
  refine ⟨i, by simp [hi, hname], ?_⟩
  intro j hj
  obtain ⟨t, ht, hother⟩ := Option.bind_eq_some_iff.1 hj
  obtain ⟨hlt, rfl⟩ := List.getElem?_eq_some_iff.1 ht
  rcases Nat.lt_trichotomy i j with hij | hij | hij
  · exact absurd rfl (hpairwise i j hi hlt hij name hname name hother)
  · exact hij.symm
  · exact absurd rfl (hpairwise j i hlt hi hij name hother name hname)

end Segment

theorem Route.nodup_names (r : Route) : (Segment.names r.segments).Nodup := by
  obtain ⟨_, _, _, hdistinct⟩ := Segment.ofLogicalPath_eq_ok r.segments_eq
  exact (Segment.firstRepeated?_eq_none_iff.1 hdistinct).1

/-! ## The parameters of a match -/

namespace Match

variable {m : Match} {parts : List Text}

theorem params_eq_zip (h : m.captures = Segment.namedParts m.route.segments parts) :
    m.params =
      (Segment.names m.route.segments).zip (Segment.namedParts m.route.segments parts) := by
  rw [params, h]
  rfl

theorem map_fst_params (htakes : List.Forall₂ Segment.Takes m.route.segments parts)
    (h : m.captures = Segment.namedParts m.route.segments parts) :
    m.params.map Prod.fst = Segment.names m.route.segments := by
  rw [params_eq_zip h]
  exact List.map_fst_zip (Nat.le_of_eq (Segment.length_names_of_takes htakes))

theorem lookup_params (htakes : List.Forall₂ Segment.Takes m.route.segments parts)
    (h : m.captures = Segment.namedParts m.route.segments parts) {s : Segment} {part name : Text}
    (hmem : (s, part) ∈ m.route.segments.zip parts) (hname : s.name? = some name) :
    m.params.lookup name = some part := by
  rw [params_eq_zip h]
  exact Segment.lookup_of_mem_zip htakes m.route.nodup_names hmem hname

end Match

/-- The parameters of a match belong to the names of the route, each of which stands for one
segment, they are texts that these segments take, and the path is what the segments give with the
parameters in place. -/
theorem resolve_params_rebuild {routes : List Route} {path : Text} {m : Match}
    (h : resolve routes path = some m) :
    m.params.map Prod.fst = Segment.names m.route.segments ∧
    (∀ name ∈ Segment.names m.route.segments,
      ∃! i : Nat, m.route.segments[i]?.bind Segment.name? = some name) ∧
    (∀ s ∈ m.route.segments, ∀ name, s.name? = some name →
      ∃ value, m.params.lookup name = some value ∧ s.Takes value) ∧
    ∃ parts, m.route.segments.map (Segment.fill? m.params) = parts.map some ∧
      path = Text.slashed parts := by
  have hcaptures := (firstBest_of_resolve h).captures_eq
  obtain ⟨parts, hparts, hnamed⟩ := Route.decomposes_of_captures? hcaptures
  have hlookup : ∀ s part name, (s, part) ∈ m.route.segments.zip parts → s.name? = some name →
      m.params.lookup name = some part := fun _ _ _ => Match.lookup_params hparts.takes hnamed
  refine ⟨Match.map_fst_params hparts.takes hnamed,
    fun name => Segment.existsUnique_of_nodup m.route.nodup_names, ?_,
    parts, Segment.map_fill?_eq hparts.takes hlookup, hparts.path_eq⟩
  intro s hs name hname
  obtain ⟨part, hmem, htake⟩ := Segment.exists_mem_zip_of_takes hparts.takes hs
  exact ⟨part, hlookup s part name hmem hname, htake⟩

/-- The route `/[k:|a|b]/x/[n:number]`. -/
def choiceAndNumber : Route :=
  ⟨⟨[]⟩, "/[k:|a|b]/x/[n:number]".toList,
    [.choice ['k'] [['a'], ['b']], .literal ['x'], .number ['n']], none, by decide +kernel⟩

/-- The literal between the two parameters leaves no entry and is put back all the same. -/
theorem resolve_params_rebuild_choiceAndNumber :
    resolve [choiceAndNumber] "/b/x/.5".toList =
      some ⟨choiceAndNumber, [['b'], ".5".toList]⟩ ∧
    ∃ parts, choiceAndNumber.segments.map
        (Segment.fill? [(['k'], ['b']), (['n'], ".5".toList)]) = parts.map some ∧
      "/b/x/.5".toList = Text.slashed parts := by
  have hresolve : resolve [choiceAndNumber] "/b/x/.5".toList =
      some ⟨choiceAndNumber, [['b'], ".5".toList]⟩ := by cbv
  have hparams : Match.params ⟨choiceAndNumber, [['b'], ".5".toList]⟩ =
      [(['k'], ['b']), (['n'], ".5".toList)] := by decide
  obtain ⟨_, _, _, hrebuild⟩ := resolve_params_rebuild hresolve
  rw [hparams] at hrebuild
  exact ⟨hresolve, hrebuild⟩

end FileRouting
