import FileRouting.Proofs.Conflict
import FileRouting.Proofs.LogicalPaths
import FileRouting.Proofs.LongestCaptures
import FileRouting.Proofs.Parameters
import FileRouting.Proofs.RouteOrder

/-! # Logical paths resolve to their own routes

A route without choices, numbers and rests matches its own logical path, in which each parameter
takes the bracketed text that declares it.  No other route beats it there.  The ranks are compared
from the left, and at the first position where another route that matches has another kind of
segment, that segment cannot be the more specific one: bracketed text is no literal, no value of a
choice and no number, and a rest is less specific than what it stands against.  What is left is a
tie, and the ties are the conflicts.

`Segment.rank_lt_or_overlaps` compares two segments at one component and
`Segment.difference_neg_or_conflict` two routes along a path. -/

namespace FileRouting

namespace Segment

/-- Literal text and parameters for one component take what declares them. -/
theorem takes_of_read? {raw : Text} {s : Segment} (h : read? raw = some s)
    (hplain : s.kind = .literal ∨ s.kind = .wildcard) (hslash : '/' ∉ raw) : s.Takes raw := by
  cases s with
  | literal text => exact (Segment.literal.inj (literal_of_read? h rfl)).symm
  | wildcard name => exact hslash
  | choice _ _ | number _ | rest _ => simp [kind] at hplain

/-! ## Two segments at one component -/

/-- At the text that declares a literal or a parameter for one component, no other segment is more
specific, and an equally specific one is in conflict with it. -/
theorem rank_lt_or_overlaps {s t : Segment} {own raw : Text} (hs : read? own = some s)
    (hwf : s.WellFormed) (ht : read? raw = some t)
    (hplain : t.kind = .literal ∨ t.kind = .wildcard) (htakes : s.Takes raw) :
    s.rank < t.rank ∨ s.kind = t.kind ∧ s.overlaps t := by
  cases t with
  | literal text =>
      cases literal_of_read? ht rfl
      cases s with
      | literal other =>
          cases htakes
          exact .inr ⟨rfl, by simp [overlaps]⟩
      | choice _ _ | number _ | wildcard _ | rest _ => exact .inl (by simp [rank, kind, Kind.rank])
  | wildcard name =>
      obtain ⟨body, hbody⟩ := bracketed_of_read? ht (by simp [kind])
      have hbracket : '[' ∈ raw := by simp [hbody]
      cases s with
      | literal text =>
          -- the same text would be read in two ways
          cases literal_of_read? hs rfl
          cases htakes
          rw [hs] at ht
          cases ht
      | choice _ values =>
          have hvalue := hwf.2 raw htakes
          simp only [isValue, Bool.and_eq_true, List.all_eq_true] at hvalue
          have hallowed := hvalue.2 '[' hbracket
          simp at hallowed
      | number _ => exact absurd hbracket (notMem_of_decimal (by decide) (by decide) htakes)
      | wildcard _ => exact .inr ⟨rfl, rfl⟩
      | rest _ => exact .inl (by simp [rank, kind, Kind.rank])
  | choice _ _ | number _ | rest _ => simp [kind] at hplain

theorem eq_of_overlaps_literal {s t : Segment} (h : s.overlaps t) (hkind : t.kind = .literal) :
    s = t := by
  cases t with
  | literal text =>
      cases s with
      | literal other =>
          have heq : other = text := by simpa [overlaps] using h
          rw [heq]
      | choice _ _ | number _ | wildcard _ | rest _ => cases h
  | choice _ _ | number _ | wildcard _ | rest _ => cases hkind

theorem takes_of_overlaps {s t : Segment} (h : s.overlaps t)
    (hplain : t.kind = .literal ∨ t.kind = .wildcard) {part : Text} (htakes : t.Takes part) :
    s.Takes part := by
  cases t with
  | literal text => rwa [eq_of_overlaps_literal h rfl]
  | wildcard name =>
      cases s with
      | wildcard _ => exact htakes
      | literal _ | choice _ _ | number _ | rest _ => cases h
  | choice _ _ | number _ | rest _ => simp [kind] at hplain

/-! ## Two routes along a path -/

variable {as bs : List Segment} {raws : List Text}

theorem exists_of_conflict (h : conflict as bs) {i : Nat} {s : Segment} (hs : as[i]? = some s) :
    ∃ t, bs[i]? = some t ∧ s.kind = t.kind := by
  have hkind : (bs[i]?).map kind = some s.kind := by
    rw [← List.getElem?_map, ← map_kind_eq_of_conflict h, List.getElem?_map, hs]
    rfl
  obtain ⟨t, ht, htKind⟩ := Option.map_eq_some_iff.1 hkind
  exact ⟨t, ht, htKind.symm⟩

/-- Along the components that declare a route without choices, numbers and rests, every other list
of segments is less specific or in conflict. -/
theorem difference_neg_or_conflict
    (has : ∀ s ∈ as, (∃ own, read? own = some s) ∧ s.WellFormed)
    (hread : List.Forall₂ (fun raw t => read? raw = some t) raws bs)
    (hplain : ∀ t ∈ bs, t.kind = .literal ∨ t.kind = .wildcard) (h : Covers as raws) :
    Specificity.difference (Specificity.ofSegments as) (Specificity.ofSegments bs) < 0 ∨
      conflict as bs := by
  induction h generalizing bs with
  | nil =>
      cases hread
      exact .inr rfl
  | @one s ss raw raws hs _ ih =>
      cases hread with
      | @cons _ t _ ts ht hts =>
          rw [List.forall_mem_cons] at has hplain
          obtain ⟨⟨own, hown⟩, hwf⟩ := has.1
          simp only [Specificity.ofSegments, List.map_cons, Specificity.difference, conflict,
            Bool.and_eq_true]
          rcases rank_lt_or_overlaps hown hwf ht hplain.1 hs with hless | ⟨hkind, hoverlaps⟩
          · rw [if_neg (Nat.ne_of_lt hless)]
            exact .inl (by omega)
          · -- equal ranks pass the question on
            have hrank : s.rank = t.rank := congrArg Kind.rank hkind
            rw [if_pos hrank]
            exact (ih has.2 hts hplain.2).imp_right fun hlater => ⟨hoverlaps, hlater⟩
  | @more s ss raw raws hrest hs _ _ =>
      cases hread with
      | @cons _ t _ ts ht _ =>
          rw [List.forall_mem_cons] at has hplain
          obtain ⟨⟨own, hown⟩, hwf⟩ := has.1
          rcases rank_lt_or_overlaps hown hwf ht hplain.1 hs with hless | ⟨hkind, _⟩
          · simp only [Specificity.ofSegments, List.map_cons, Specificity.difference]
            rw [if_neg (Nat.ne_of_lt hless)]
            exact .inl (by omega)
          · rw [← hkind, hrest] at hplain
            simp at hplain

theorem takes_of_conflict (htakes : List.Forall₂ Takes bs raws)
    (hplain : ∀ t ∈ bs, t.kind = .literal ∨ t.kind = .wildcard) (h : conflict as bs) :
    List.Forall₂ Takes as raws := by
  rw [conflict_iff] at h
  induction h generalizing raws with
  | nil =>
      cases htakes
      exact .nil
  | cons hoverlaps _ ih =>
      rw [List.forall_mem_cons] at hplain
      cases htakes with
      | cons ht hts => exact .cons (takes_of_overlaps hoverlaps hplain.1 ht) (ih hts hplain.2)

theorem conflict_self_of_plain (hplain : ∀ t ∈ bs, t.kind = .literal ∨ t.kind = .wildcard) :
    conflict bs bs := by
  rw [conflict_iff, List.forall₂_same]
  intro t ht
  have hkind := hplain t ht
  cases t with
  | literal text => simp [overlaps]
  | wildcard name => rfl
  | choice _ _ | number _ | rest _ => simp [kind] at hkind

theorem eq_of_conflict_literals (hkind : ∀ t ∈ bs, t.kind = .literal) (h : conflict as bs) :
    as = bs := by
  rw [conflict_iff] at h
  induction h with
  | nil => rfl
  | cons hoverlaps _ ih =>
      rw [List.forall_mem_cons] at hkind
      rw [eq_of_overlaps_literal hoverlaps hkind.1, ih hkind.2]

/-- Literals are read from no other components than their texts. -/
theorem eq_of_read?_literals {raws' : List Text}
    (h : List.Forall₂ (fun raw t => read? raw = some t) raws bs)
    (h' : List.Forall₂ (fun raw t => read? raw = some t) raws' bs)
    (hkind : ∀ t ∈ bs, t.kind = .literal) : raws = raws' := by
  induction h generalizing raws' with
  | nil =>
      cases h'
      rfl
  | cons ht _ ih =>
      cases h' with
      | cons ht' hts' =>
          rw [List.forall_mem_cons] at hkind
          rw [ih hts' hkind.2]
          have hsame := (literal_of_read? ht hkind.1).symm.trans (literal_of_read? ht' hkind.1)
          rw [Segment.literal.inj hsame]

end Segment

namespace Route

variable {r w : Route}

/-- A route without choices, numbers and rests takes its own logical path component by component. -/
theorem decomposes_canonical (hr : r.FromDirectory)
    (hplain : ∀ s ∈ r.segments, s.kind = .literal ∨ s.kind = .wildcard) :
    Decomposes r.segments r.canonical (LogicalPath.parts r.canonical) := by
  refine ⟨hr.slashed_parts.symm, ?_⟩
  rw [List.forall₂_iff_get]
  have hread := r.forall₂_read?_parts
  refine ⟨hread.length_eq.symm, ?_⟩
  intro i hi hi'
  exact Segment.takes_of_read? (hread.get hi' hi) (hplain _ (List.get_mem ..))
    (LogicalPath.slash_notMem_of_mem_parts (List.get_mem ..))

theorem difference_neg_or_conflict_of_accepts (hr : r.FromDirectory)
    (hplain : ∀ s ∈ r.segments, s.kind = .literal ∨ s.kind = .wildcard)
    (h : w.accepts r.canonical) :
    Specificity.difference w.specificity r.specificity < 0 ∨
      Segment.conflict w.segments r.segments := by
  rw [← hr.slashed_parts, accepts_slashed_iff fun c => LogicalPath.slash_notMem_of_mem_parts] at h
  exact Segment.difference_neg_or_conflict
    (fun s hs => ⟨exists_read?_of_mem hs, w.wellFormed s hs⟩) r.forall₂_read?_parts hplain h

/-- What a route in conflict captures from the logical path are the components at the positions of
its parameters. -/
theorem captures?_canonical (hr : r.FromDirectory)
    (hplain : ∀ s ∈ r.segments, s.kind = .literal ∨ s.kind = .wildcard)
    (h : Segment.conflict w.segments r.segments) :
    Decomposes w.segments r.canonical (LogicalPath.parts r.canonical) ∧
      w.captures? r.canonical =
        some (Segment.namedParts w.segments (LogicalPath.parts r.canonical)) := by
  obtain ⟨hpath, htakes⟩ := decomposes_canonical hr hplain
  have hparts : Decomposes w.segments r.canonical (LogicalPath.parts r.canonical) :=
    ⟨hpath, Segment.takes_of_conflict htakes hplain h⟩
  refine ⟨hparts, ?_⟩
  have hkind : ∀ s ∈ w.segments, s.kind ≠ .rest := by
    intro s hs hrest
    have hmem : Segment.Kind.rest ∈ r.segments.map Segment.kind := by
      rw [← Segment.map_kind_eq_of_conflict h, ← hrest]
      exact List.mem_map_of_mem hs
    obtain ⟨t, ht, hkind⟩ := List.mem_map.1 hmem
    have := hplain t ht
    simp [hkind] at this
  obtain ⟨captured, hcaptured⟩ := Option.isSome_iff_exists.1 (accepts_iff.2 ⟨_, hparts⟩)
  obtain ⟨others, hothers, rfl⟩ := decomposes_of_captures? hcaptured
  rw [hcaptured, hothers.eq w.wellFormed hkind hparts]

/-- The component at the position of a parameter is the bracketed text that declares it. -/
theorem exists_bracketed_component (r : Route) {i : Nat} {s : Segment}
    (hs : r.segments[i]? = some s) (hkind : s.kind ≠ .literal) :
    ∃ body, r.canonical.components[i]? = some ('[' :: body ++ [']']) ∧
      (LogicalPath.parts r.canonical)[i]? = some ('[' :: body ++ [']']) := by
  obtain ⟨hi, rfl⟩ := List.getElem?_eq_some_iff.1 hs
  have hlt : i < (LogicalPath.parts r.canonical).length := by
    rwa [r.forall₂_read?_parts.length_eq]
  have hread : Segment.read? (LogicalPath.parts r.canonical)[i] = some r.segments[i] :=
    r.forall₂_read?_parts.get hlt hi
  obtain ⟨body, hbody⟩ := Segment.bracketed_of_read? hread hkind
  have hpart : (LogicalPath.parts r.canonical)[i]? = some ('[' :: body ++ [']']) := by
    rw [List.getElem?_eq_getElem hlt, hbody]
  refine ⟨body, ?_, hpart⟩
  have hne : r.canonical.components ≠ [] := by
    intro hnil
    -- the root has no text that could stand in brackets
    have hmem := List.mem_of_getElem? hpart
    rw [LogicalPath.parts, hnil] at hmem
    simp at hmem
  rwa [LogicalPath.parts_of_ne_nil hne] at hpart

/-- Routes made from directories that have literals only conflict exactly if they have the same
logical path. -/
theorem conflict_iff_canonical_eq (hr : r.FromDirectory) (hw : w.FromDirectory)
    (hkind : ∀ s ∈ r.segments, s.kind = .literal) :
    Segment.conflict w.segments r.segments ↔ w.canonical = r.canonical := by
  constructor
  · intro h
    have hread := w.forall₂_read?_parts
    rw [Segment.eq_of_conflict_literals hkind h] at hread
    rw [← hw.slashed_parts, ← hr.slashed_parts,
      Segment.eq_of_read?_literals hread r.forall₂_read?_parts hkind]
  · intro h
    rw [segments_eq_of_canonical_eq h]
    exact Segment.conflict_self_of_plain fun s hs => .inl (hkind s hs)

end Route

/-! ## Resolution -/

/-- The logical path of a route without choices, numbers and rests resolves to the first route of
the list that is in conflict with it. -/
theorem resolve_canonical {routes : List Route} {r : Route} (hmem : r ∈ routes)
    (hr : r.FromDirectory)
    (hplain : ∀ s ∈ r.segments, s.kind = .literal ∨ s.kind = .wildcard) :
    ∃ m, resolve routes r.canonical = some m ∧
      routes.find? (fun w => Segment.conflict w.segments r.segments) = some m.route ∧
      m.captures = Segment.namedParts m.route.segments (LogicalPath.parts r.canonical) := by
  have hself : Segment.conflict r.segments r.segments := Segment.conflict_self_of_plain hplain
  have hconflictAccepts : ∀ {w : Route}, Segment.conflict w.segments r.segments →
      w.accepts r.canonical := by
    intro w h
    rw [Route.accepts, (Route.captures?_canonical hr hplain h).2]
    rfl
  cases hresolve : resolve routes r.canonical with
  | none =>
      have hrefuses := resolve_eq_none_iff.1 hresolve r hmem
      rw [hconflictAccepts hself] at hrefuses
      cases hrefuses
  | some m =>
      have hbest := firstBest_of_resolve hresolve
      have hswap := Specificity.difference_swap r.specificity m.route.specificity
      have hleast := hbest.difference_nonpos hmem (hconflictAccepts hself)
      -- the winner is no less specific than the route itself, so that it is in conflict with it
      have hconflict : Segment.conflict m.route.segments r.segments :=
        (Route.difference_neg_or_conflict_of_accepts hr hplain hbest.accepts).resolve_left
          (by omega)
      refine ⟨m, rfl, ?_, ?_⟩
      · obtain ⟨before, after, hroutes, hbefore, _⟩ := hbest.split
        rw [List.find?_eq_some_iff_append]
        refine ⟨hconflict, before, after, hroutes, ?_⟩
        intro w hw
        by_contra hearlier
        have hearly : Segment.conflict w.segments r.segments := by simpa using hearlier
        have hless := hbefore w hw (hconflictAccepts hearly)
        have hsame : w.specificity = m.route.specificity :=
          (Segment.ofSegments_eq_of_conflict hearly).trans
            (Segment.ofSegments_eq_of_conflict hconflict).symm
        rw [hsame, Specificity.difference_self] at hless
        exact absurd hless (Int.lt_irrefl 0)
      · have hcaptures := hbest.captures_eq
        rw [(Route.captures?_canonical hr hplain hconflict).2] at hcaptures
        exact (Option.some.inj hcaptures).symm

namespace Table

/-- For a route that has literals only, a table finds the first route in conflict under its logical
path. -/
theorem get?_canonical {t : Table} (hdirectory : ∀ w ∈ t.routes, w.FromDirectory) {r : Route}
    (hr : r.FromDirectory) (hliteral : ∀ s ∈ r.segments, s.kind = .literal) :
    t.get? r.canonical = t.routes.find? fun w => Segment.conflict w.segments r.segments := by
  apply List.find?_congr
  intro w hw
  rw [Bool.eq_iff_iff, decide_eq_true_iff]
  exact (Route.conflict_iff_canonical_eq hr (hdirectory w hw) hliteral).symm

/-- In a table of routes that are made from directories, the logical path of a route without
choices, numbers and rests resolves to the first route in conflict with it, which is the route
itself if there is no other one, and each parameter has the bracketed text at its position.  Without
parameters it is the route that the table has under this logical path. -/
theorem resolve_round_trip {b : TieBreak} {routes : List Route} {t : Table}
    (hbuilt : ofRoutes b routes = .ok t) (hdirectory : ∀ w ∈ routes, w.FromDirectory) {r : Route}
    (hr : r ∈ t.routes) (hplain : ∀ s ∈ r.segments, s.kind = .literal ∨ s.kind = .wildcard) :
    ∃ m, t.resolve r.canonical = some m ∧
      t.routes.find? (fun w => Segment.conflict w.segments r.segments) = some m.route ∧
      m.params.map Prod.fst = Segment.names m.route.segments ∧
      (∀ (i : Nat) (s : Segment) (name : Text), m.route.segments[i]? = some s →
        s.name? = some name → ∃ body, r.canonical.components[i]? = some ('[' :: body ++ [']']) ∧
          m.params.lookup name = some ('[' :: body ++ [']'])) ∧
      ((∀ w ∈ t.routes, w ≠ r → Segment.conflict w.segments r.segments = false) → m.route = r) ∧
      ((∀ s ∈ r.segments, s.kind = .literal) →
        t.get? r.canonical = some m.route ∧ m.params = []) := by
  have hdirectory' : ∀ w ∈ t.routes, w.FromDirectory := fun w hw =>
    hdirectory w ((routes_perm_of_ofRoutes hbuilt).mem_iff.1 hw)
  have hrDirectory := hdirectory' r hr
  obtain ⟨m, hresolve, hfind, hcaptures⟩ := resolve_canonical hr hrDirectory hplain
  have hconflict : Segment.conflict m.route.segments r.segments := by
    obtain ⟨hfound, _⟩ := List.find?_eq_some_iff_append.1 hfind
    exact hfound
  obtain ⟨⟨_, htakes⟩, _⟩ := Route.captures?_canonical hrDirectory hplain hconflict
  refine ⟨m, hresolve, hfind, Match.map_fst_params htakes hcaptures, ?_, ?_, ?_⟩
  · intro i s name hs hname
    obtain ⟨own, hown, hkind⟩ := Segment.exists_of_conflict hconflict hs
    obtain ⟨body, hcomponent, hpart⟩ := r.exists_bracketed_component hown
      (by rw [← hkind]; exact Segment.kind_ne_literal_of_name? hname)
    have hmem : (s, '[' :: body ++ [']']) ∈ m.route.segments.zip (LogicalPath.parts r.canonical) :=
      List.mem_of_getElem? (List.getElem?_zip_eq_some.2 ⟨hs, hpart⟩)
    exact ⟨body, hcomponent, Match.lookup_params htakes hcaptures hmem hname⟩
  · intro hunique
    by_contra hne
    rw [hunique m.route (List.mem_of_find?_eq_some hfind) hne] at hconflict
    cases hconflict
  · intro hliteral
    have hsegments := Segment.eq_of_conflict_literals hliteral hconflict
    refine ⟨(get?_canonical hdirectory' hrDirectory hliteral).trans hfind, ?_⟩
    rw [Match.params_eq_zip hcaptures, hsegments, Segment.names_eq_nil_of_literals hliteral]
    rfl

/-- The route `/about`. -/
def about : Route := ⟨⟨[1]⟩, "/about".toList, [.literal "about".toList], none, by decide +kernel⟩

/-- The route `/[id]/x`. -/
def idX : Route :=
  ⟨⟨[2]⟩, "/[id]/x".toList, [.wildcard "id".toList, .literal ['x']], none, by decide +kernel⟩

/-- The route `/[name]/x`. -/
def nameX : Route :=
  ⟨⟨[3]⟩, "/[name]/x".toList, [.wildcard "name".toList, .literal ['x']], none, by decide +kernel⟩

/-- The route `/[...all:**]`. -/
def restAll : Route :=
  ⟨⟨[4]⟩, "/[...all:**]".toList, [.rest "all".toList], none, by decide +kernel⟩

/-- The path `/[name]/x` is resolved to the route `/[id]/x`, which comes first in the table and is
in conflict, and not to the rest, which comes before both; `/about` is resolved to itself. -/
theorem resolve_round_trip_nameX :
    ofRoutes .canonicalPath [about, nameX, idX, restAll] =
      .ok ⟨[restAll, idX, nameX, about], none⟩ ∧
    (∀ w ∈ [about, nameX, idX, restAll], w.FromDirectory) ∧
    (∃ m, resolve ⟨[restAll, idX, nameX, about], none⟩ nameX.canonical = some m ∧
      m.route = idX ∧ m.params.lookup "id".toList = some "[name]".toList) ∧
    ∃ m, resolve ⟨[restAll, idX, nameX, about], none⟩ about.canonical = some m ∧
      m.route = about ∧ m.params = [] := by
  have hbuilt : ofRoutes .canonicalPath [about, nameX, idX, restAll] =
      .ok ⟨[restAll, idX, nameX, about], none⟩ := by cbv
  have hdirectory : ∀ w ∈ [about, nameX, idX, restAll], w.FromDirectory := by
    simp only [List.forall_mem_cons, List.not_mem_nil, false_imp_iff, implies_true, and_true]
    exact ⟨⟨.unlimited, "about".toList, none, by decide +kernel⟩,
      ⟨.unlimited, "[name]/x".toList, none, by decide +kernel⟩,
      ⟨.unlimited, "(shop)/[id]/x".toList, none, by decide +kernel⟩,
      ⟨.unlimited, "./[...all:**]".toList, none, by decide +kernel⟩⟩
  refine ⟨hbuilt, hdirectory, ?_, ?_⟩
  · obtain ⟨m, hresolve, hfind, _, hparams, _, _⟩ :=
      resolve_round_trip (r := nameX) hbuilt hdirectory (by decide) (by decide)
    have hroute : m.route = idX := (Option.some.inj hfind).symm
    obtain ⟨body, hcomponent, hlookup⟩ := hparams 0 (.wildcard "id".toList) "id".toList
      (by rw [hroute]; rfl) rfl
    refine ⟨m, hresolve, hroute, ?_⟩
    rw [hlookup, ← hcomponent]
    decide +kernel
  · obtain ⟨m, hresolve, _, _, _, hself, hliteral⟩ :=
      resolve_round_trip (r := about) hbuilt hdirectory (by decide) (by decide)
    exact ⟨m, hresolve, hself (by decide), (hliteral (by decide)).2⟩

end Table

end FileRouting
