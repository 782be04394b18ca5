import FileRouting.Proofs.Ambiguity

/-! # What decides a route

With a tie break that sorts, the logical paths of the routes alone decide what a path resolves to:
not the order in which the routes are found, nor the files that declare them, nor their layouts.

`Route.bare` keeps the logical path of a route and forgets the rest, and `resolve_map_bare` says
that nothing of what it forgets is looked at.  Conflicts are between segments, so that the verdict
of `reject` depends on the logical paths alone as well, and not on their order, because conflicts
are symmetric. -/

namespace FileRouting

namespace Route

/-- A route without the file that declares it and without its layout. -/
def bare (r : Route) : Route := { r with source := ⟨[]⟩, layout := none }

theorem bare_eq_bare {a b : Route} (h : a.canonical = b.canonical) : a.bare = b.bare := by
  have hsegments := segments_eq_of_canonical_eq h
  cases a
  cases b
  cases h
  cases hsegments
  rfl

theorem map_bare_eq {as bs : List Route} (h : as.map canonical = bs.map canonical) :
    as.map bare = bs.map bare := by
  induction as generalizing bs with
  | nil =>
      rw [List.map_nil, eq_comm, List.map_eq_nil_iff] at h
      rw [h]
  | cons a as ih =>
      cases bs with
      | nil => cases h
      | cons b bs =>
          rw [List.map_cons, List.map_cons, List.cons.injEq] at h
          rw [List.map_cons, List.map_cons, bare_eq_bare h.1, ih h.2]

theorem conflicts_eq_of_canonical_eq {a b c d : Route} (hac : a.canonical = c.canonical)
    (hbd : b.canonical = d.canonical) : a.conflicts b = c.conflicts d := by
  rw [conflicts, conflicts, specificity, specificity, specificity, specificity,
    segments_eq_of_canonical_eq hac, segments_eq_of_canonical_eq hbd]

/-- No conflict is found if there is none, neither with the earlier routes nor in the list. -/
theorem firstConflict?_eq_none {earlier routes : List Route}
    (hearlier : ∀ e ∈ earlier, ∀ r ∈ routes, e.conflicts r = false)
    (hroutes : routes.Pairwise fun a b => a.conflicts b = false) :
    firstConflict? earlier routes = none := by
  induction routes generalizing earlier with
  | nil => rfl
  | cons r routes ih =>
      rw [List.pairwise_cons] at hroutes
      have hfind : earlier.find? (fun e => e.conflicts r) = none := by
        rw [List.find?_eq_none]
        intro e he
        simp [hearlier e he r (List.mem_cons_self ..)]
      rw [firstConflict?, hfind]
      apply ih _ hroutes.2
      intro e he other hother
      rcases List.mem_append.1 he with he | he
      · exact hearlier e he other (List.mem_cons_of_mem r hother)
      · rw [List.mem_singleton.1 he]
        exact hroutes.1 other hother

theorem firstConflict?_eq_none_iff {routes : List Route} :
    firstConflict? [] routes = none ↔ routes.Pairwise fun a b => a.conflicts b = false :=
  ⟨fun h => (conflicts_of_firstConflict?_eq_none h).2, firstConflict?_eq_none (by simp)⟩

/-- Whether a list of routes has a conflict depends on its logical paths only, whatever their order.
-/
theorem pairwise_conflicts_of_perm {as bs : List Route}
    (h : (as.map canonical).Perm (bs.map canonical))
    (has : as.Pairwise fun a b => a.conflicts b = false) :
    bs.Pairwise fun a b => a.conflicts b = false := by
  -- the same said of logical paths, where permutations apply
  have hpaths : ∀ {routes : List Route}, (routes.Pairwise fun a b => a.conflicts b = false) ↔
      (routes.map canonical).Pairwise fun p q =>
        ∀ a b : Route, a.canonical = p → b.canonical = q → a.conflicts b = false := by
    intro routes
    rw [List.pairwise_map]
    constructor
    · intro hpairwise
      apply hpairwise.imp
      intro a b hab c d hc hd
      rw [conflicts_eq_of_canonical_eq hc hd, hab]
    · intro hpairwise
      exact hpairwise.imp fun hab => hab _ _ rfl rfl
  rw [hpaths] at has ⊢
  refine (List.Perm.pairwise_iff ?_ h).1 has
  intro p q hpq a b ha hb
  rw [conflicts_comm]
  exact hpq b a hb ha

end Route

/-- A match without the file that declares its route. -/
def Match.bare (m : Match) : Match := { m with route := m.route.bare }

theorem Match.step_bare (path : Text) (best : Option Match) (r : Route) :
    step path (best.map bare) r.bare = (step path best r).map bare := by
  have hcaptures : r.bare.captures? path = r.captures? path := rfl
  unfold step
  rw [hcaptures]
  cases r.captures? path with
  | none => rfl
  | some captured =>
      cases best with
      | none => rfl
      | some m =>
          have hspecificity : Specificity.difference r.bare.specificity m.bare.route.specificity =
              Specificity.difference r.specificity m.route.specificity := rfl
          simp only [Option.map_some, hspecificity]
          split <;> rfl

theorem resolve_map_bare (routes : List Route) (path : Text) :
    resolve (routes.map Route.bare) path = (resolve routes path).map Match.bare := by
  rw [resolve, resolve, List.foldl_map]
  change routes.foldl (fun best r => Match.step path best r.bare) (Option.map Match.bare none) = _
  exact List.foldl_hom (Option.map Match.bare) fun best r => Match.step_bare path best r

/-- What a path resolves to, as the logical path and the parameters, depends on the logical paths of
the routes only. -/
theorem resolve_eq_of_map_canonical_eq {as bs : List Route}
    (h : as.map Route.canonical = bs.map Route.canonical) (path : Text) :
    (resolve as path).map (fun m => (m.route.canonical, m.params)) =
      (resolve bs path).map (fun m => (m.route.canonical, m.params)) := by
  have hbare : (resolve as path).map Match.bare = (resolve bs path).map Match.bare := by
    rw [← resolve_map_bare, ← resolve_map_bare, Route.map_bare_eq h]
  have hpair := congrArg
    (Option.map fun m : Match => (m.route.canonical, m.params)) hbare
  rw [Option.map_map, Option.map_map] at hpair
  exact hpair

namespace Table

theorem ofRoutes_reject_eq_ok_iff {routes : List Route} :
    (∃ t, ofRoutes .reject routes = .ok t) ↔
      routes.Pairwise fun a b => a.conflicts b = false := by
  rw [← Route.firstConflict?_eq_none_iff]
  constructor
  · rintro ⟨t, h⟩
    exact (ofRoutes_reject_eq_ok h).1
  · intro hnone
    rw [ofRoutes, TieBreak.arrange, hnone]
    exact ⟨_, rfl⟩

/-- With a tie break that sorts, lists of routes with the same logical paths are both refused or
give tables that have the same logical paths in the same order, and that every path resolves in to
the same logical path with the same parameters.  If one list is a permutation of the other, and no
two of its routes agree in logical path and location, the tables are the same.  Only conflicts are
refused, and only by `reject`. -/
theorem built_from_logical_paths {as bs : List Route}
    (h : (as.map Route.canonical).Perm (bs.map Route.canonical)) :
    (∃ t, ofRoutes .canonicalPath as = .ok t) ∧
    ∀ b : TieBreak, b ≠ .enumeration →
      ((∃ t, ofRoutes b as = .ok t) ↔ ∃ u, ofRoutes b bs = .ok u) ∧
      ∀ t u, ofRoutes b as = .ok t → ofRoutes b bs = .ok u →
        t.routes.map Route.canonical = u.routes.map Route.canonical ∧
        (∀ path, (t.resolve path).map (fun m => (m.route.canonical, m.params)) =
          (u.resolve path).map (fun m => (m.route.canonical, m.params))) ∧
        (as.Perm bs →
          (as.Pairwise fun a b => ¬ (a.canonical = b.canonical ∧ a.source.Same b.source)) →
            t = u) := by
  refine ⟨⟨_, rfl⟩, ?_⟩
  intro b hb
  constructor
  · cases b with
    | canonicalPath => exact ⟨fun _ => ⟨_, rfl⟩, fun _ => ⟨_, rfl⟩⟩
    | enumeration => exact absurd rfl hb
    | reject =>
        rw [ofRoutes_reject_eq_ok_iff, ofRoutes_reject_eq_ok_iff]
        exact ⟨Route.pairwise_conflicts_of_perm h, Route.pairwise_conflicts_of_perm h.symm⟩
  · intro t u ht hu
    rw [eq_sort_of_ofRoutes hb ht, eq_sort_of_ofRoutes hb hu]
    have hpaths := Route.map_canonical_sort h
    refine ⟨hpaths, fun path => resolve_eq_of_map_canonical_eq hpaths path, ?_⟩
    intro hperm hdistinct
    rw [Route.sort_eq_of_perm hperm hdistinct]

/-- The route `/[id]`, declared by the given file. -/
def idRoute (source : Disk.Path) (layout : Option Disk.Path) : Route :=
  ⟨source, "/[id]".toList, [.wildcard "id".toList], layout, by decide +kernel⟩

/-- The route `/[slug]`, declared by the given file. -/
def slugRoute (source : Disk.Path) (layout : Option Disk.Path) : Route :=
  ⟨source, "/[slug]".toList, [.wildcard "slug".toList], layout, by decide +kernel⟩

/-- Two files that declare `/[slug]` and `/[id]`, without layouts. -/
def found : List Route := [slugRoute ⟨[1]⟩ none, idRoute ⟨[2]⟩ none]

/-- Two other files that declare the same, the other way round, one of them with a layout. -/
def moved : List Route := [idRoute ⟨[3]⟩ (some ⟨[5]⟩), slugRoute ⟨[0]⟩ none]

theorem built_from_logical_paths_moved :
    (found.map Route.canonical).Perm (moved.map Route.canonical) ∧
    ofRoutes .canonicalPath found = .ok ⟨found.reverse, none⟩ ∧
    ofRoutes .canonicalPath moved = .ok ⟨moved, none⟩ ∧
    (∀ path, (resolve ⟨found.reverse, none⟩ path).map (fun m => (m.route.canonical, m.params)) =
      (resolve ⟨moved, none⟩ path).map (fun m => (m.route.canonical, m.params))) ∧
    (¬ ∃ t, ofRoutes .reject found = .ok t) ∧ (¬ ∃ u, ofRoutes .reject moved = .ok u) ∧
    ofRoutes .canonicalPath found.reverse = .ok ⟨found.reverse, none⟩ := by
  have hpaths : (found.map Route.canonical).Perm (moved.map Route.canonical) := .swap ..
  have hfound : ofRoutes .canonicalPath found = .ok ⟨found.reverse, none⟩ := by cbv
  have hmoved : ofRoutes .canonicalPath moved = .ok ⟨moved, none⟩ := by cbv
  have hrefused : ¬ ∃ t, ofRoutes .reject found = .ok t := by
    rw [ofRoutes_reject_eq_ok_iff]
    decide
  obtain ⟨_, hbuilt⟩ := built_from_logical_paths hpaths
  -- the reversed list is a permutation, and its table is known by the theorem alone
  have hswap : found.reverse.Perm found := List.reverse_perm found
  have hdistinct : found.reverse.Pairwise fun a b =>
      ¬ (a.canonical = b.canonical ∧ a.source.Same b.source) := by decide
  obtain ⟨⟨t, ht⟩, hreversed⟩ := built_from_logical_paths (hswap.map Route.canonical)
  have hsame := ((hreversed .canonicalPath (by decide)).2 t _ ht hfound).2.2 hswap hdistinct
  exact ⟨hpaths, hfound, hmoved, ((hbuilt .canonicalPath (by decide)).2 _ _ hfound hmoved).2.1,
    hrefused, fun h => hrefused ((hbuilt .reject (by decide)).1.2 h), hsame ▸ ht⟩

end Table

end FileRouting
