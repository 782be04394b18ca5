import FileRouting.Proofs.Resolution
import FileRouting.Proofs.RouteOrder

/-! # Adding a route

One more route changes what a path resolves to only into that route, wherever it is put into the
list and whatever the ties.  The reason is that a search can be cut anywhere: the answers for the
parts are put together by `Match.better`, which is associative (`resolve_append`).  Sorting keeps
the order of the other routes, so that the same is true of tables that are sorted. -/

namespace FileRouting

namespace Match

/-- The match that a route has for a path. -/
def ofRoute? (path : Text) (r : Route) : Option Match :=
  (r.captures? path).map fun captures => ⟨r, captures⟩

/-- The better of two answers, the first one unless the second is more specific. -/
def better : Option Match → Option Match → Option Match
  | a, none => a
  | none, some n => some n
  | some m, some n =>
    if 0 < Specificity.difference n.route.specificity m.route.specificity then some n else some m

@[simp] theorem better_none (a : Option Match) : better a none = a := by
  cases a <;> rfl

@[simp] theorem none_better (a : Option Match) : better none a = a := by
  cases a <;> rfl

theorem step_eq (path : Text) (best : Option Match) (r : Route) :
    step path best r = better best (ofRoute? path r) := by
  unfold step ofRoute?
  cases r.captures? path <;> cases best <;> rfl

theorem better_of_pos {m n : Match}
    (h : 0 < Specificity.difference n.route.specificity m.route.specificity) :
    better (some m) (some n) = some n :=
  if_pos h

theorem better_of_nonpos {m n : Match}
    (h : Specificity.difference n.route.specificity m.route.specificity ≤ 0) :
    better (some m) (some n) = some m :=
  if_neg (Int.not_lt.2 h)

/-- The first of the most specific answers wins, wherever the brackets are. -/
theorem better_assoc (a b c : Option Match) : better (better a b) c = better a (better b c) := by
  cases a with
  | none => rw [none_better, none_better]
  | some m =>
  cases b with
  | none => rw [better_none, none_better]
  | some n =>
  cases c with
  | none => rw [better_none, better_none]
  | some k =>
      -- only the outer two cases, where both comparisons go the same way, need transitivity
      by_cases hnm : 0 < Specificity.difference n.route.specificity m.route.specificity
      · rw [better_of_pos hnm]
        by_cases hkn : 0 < Specificity.difference k.route.specificity n.route.specificity
        · rw [better_of_pos hkn, better_of_pos]
          exact Specificity.difference_pos_trans hkn hnm
        · rw [better_of_nonpos (Int.not_lt.1 hkn), better_of_pos hnm]
      · rw [better_of_nonpos (Int.not_lt.1 hnm)]
        by_cases hkn : 0 < Specificity.difference k.route.specificity n.route.specificity
        · rw [better_of_pos hkn]
        · rw [better_of_nonpos (Int.not_lt.1 hkn), better_of_nonpos (Int.not_lt.1 hnm),
            better_of_nonpos]
          exact (Specificity.difference_trans (Int.not_lt.1 hkn) (Int.not_lt.1 hnm)).1

theorem better_cases (a b : Option Match) : better a b = a ∨ better a b = b := by
  cases a with
  | none => exact .inr (none_better b)
  | some m =>
  cases b with
  | none => exact .inl rfl
  | some n =>
      by_cases h : 0 < Specificity.difference n.route.specificity m.route.specificity
      · exact .inr (better_of_pos h)
      · exact .inl (better_of_nonpos (Int.not_lt.1 h))

/-- An answer put between two others comes out, or the others are as if it were not there. -/
theorem better_insert (a : Option Match) (m : Match) (b : Option Match) :
    better a (better (some m) b) = some m ∨ better a (better (some m) b) = better a b := by
  rcases better_cases (some m) b with hm | hb
  · rcases better_cases a (some m) with ha | ha
    · -- `a` keeps its place against `m`, and `m` against `b`
      right
      rw [hm, ha]
      calc a = better a (better (some m) b) := by rw [hm, ha]
        _ = better (better a (some m)) b := (better_assoc ..).symm
        _ = better a b := by rw [ha]
    · exact .inl (by rw [hm, ha])
  · exact .inr (by rw [hb])

end Match

/-- A search goes on from the best match so far as it does from nothing. -/
theorem foldl_step (path : Text) (best : Option Match) (routes : List Route) :
    routes.foldl (Match.step path) best = Match.better best (resolve routes path) := by
  induction routes generalizing best with
  | nil => exact (Match.better_none best).symm
  | cons r routes ih =>
      change _ = Match.better best ((r :: routes).foldl (Match.step path) none)
      rw [List.foldl_cons, List.foldl_cons, ih, ih, Match.step_eq, Match.step_eq, Match.none_better,
        Match.better_assoc]

/-- A search can be cut anywhere. -/
theorem resolve_append (as bs : List Route) (path : Text) :
    resolve (as ++ bs) path = Match.better (resolve as path) (resolve bs path) := by
  rw [resolve, List.foldl_append, foldl_step]
  rfl

theorem resolve_cons (r : Route) (routes : List Route) (path : Text) :
    resolve (r :: routes) path = Match.better (Match.ofRoute? path r) (resolve routes path) := by
  rw [resolve, List.foldl_cons, foldl_step, Match.step_eq, Match.none_better]

/-- What an answer may be after a route was added: the match of this route, or the answer before. -/
def Match.OfAdded (added : Route) (path : Text) (before after : Option Match) : Prop :=
  (∃ captures, added.captures? path = some captures ∧ after = some ⟨added, captures⟩) ∨
    after = before

theorem resolve_insert (before after : List Route) (added : Route) (path : Text) :
    Match.OfAdded added path (resolve (before ++ after) path)
      (resolve (before ++ added :: after) path) := by
  rw [resolve_append, resolve_append, resolve_cons, Match.ofRoute?]
  cases hcaptures : added.captures? path with
  | none => exact .inr (by rw [Option.map_none, Match.none_better])
  | some captures =>
      rcases Match.better_insert (resolve before path) ⟨added, captures⟩ (resolve after path)
        with h | h
      · exact .inl ⟨captures, hcaptures, h⟩
      · exact .inr h

theorem Route.exists_sort_insert (before after : List Route) (added : Route) : ∃ front back,
    sort (before ++ after) = front ++ back ∧
    sort (before ++ added :: after) = front ++ added :: back :=
  exists_mergeSort_insert before after added

/-- Adding a route to a list, anywhere, makes paths resolve to this route or to what they resolved
to before, and nothing else, with the same parameters.  So it is with the tables that are sorted by
logical path, which are always built. -/
theorem resolve_ofAdded (before after : List Route) (added : Route) :
    (∀ path, Match.OfAdded added path (resolve (before ++ after) path)
      (resolve (before ++ added :: after) path)) ∧
    ∃ small large, Table.ofRoutes .canonicalPath (before ++ after) = .ok small ∧
      Table.ofRoutes .canonicalPath (before ++ added :: after) = .ok large ∧
      ∀ path, Match.OfAdded added path (small.resolve path) (large.resolve path) := by
  refine ⟨resolve_insert before after added, _, _, rfl, rfl, ?_⟩
  intro path
  obtain ⟨front, back, hsmall, hlarge⟩ := Route.exists_sort_insert before after added
  rw [Table.resolve, Table.resolve, hsmall, hlarge]
  exact resolve_insert front back added path

end FileRouting
