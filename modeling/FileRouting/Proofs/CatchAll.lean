import FileRouting.Proofs.NormalForm

/-! # Routes that match every request

A route whose only segment is a rest takes whatever stands behind the first slash, unless there is a
line feed in it.  Normal paths start with a slash and hold no line feed.  In a table with such a
route no request with a normal form is missed, however it is normalized (`Router.find_catchAll`). -/

namespace FileRouting

namespace Route

variable {r : Route} {name behind : Text}

theorem decomposes_rest_iff (hline : '\n' ∉ behind) {parts : List Text} :
    Decomposes [.rest name] ('/' :: behind) parts ↔ parts = [behind] := by
  constructor
  · rintro ⟨hpath, htakes⟩
    cases htakes with
    | @cons _ part _ _ _ hnone =>
        cases hnone
        rw [Text.slashed_cons, Text.slashed_nil, List.append_nil, List.cons.injEq] at hpath
        rw [hpath.2]
  · rintro rfl
    exact ⟨by simp, .cons hline .nil⟩

/-- A rest alone captures all that is behind the slash. -/
theorem captures?_of_rest (hrest : r.segments = [.rest name]) (hline : '\n' ∉ behind) :
    r.captures? ('/' :: behind) = some [behind] := by
  have haccepts : r.accepts ('/' :: behind) :=
    accepts_iff.2 ⟨[behind], hrest ▸ (decomposes_rest_iff hline).2 rfl⟩
  obtain ⟨captured, hcaptured⟩ := Option.isSome_iff_exists.1 haccepts
  obtain ⟨parts, hparts, rfl⟩ := decomposes_of_captures? hcaptured
  rw [hrest] at hparts hcaptured
  rw [hcaptured, (decomposes_rest_iff hline).1 hparts]
  rfl

theorem specificity_of_rest (hrest : r.segments = [.rest name]) : r.specificity = [0] := by
  rw [specificity, hrest]
  rfl

end Route

/-- Where a rest alone is among the routes, every path without a line feed behind its first slash is
resolved, to a route that is at least as specific. -/
theorem exists_resolve_of_rest {routes : List Route} {c : Route} {name behind : Text}
    (hc : c ∈ routes) (hrest : c.segments = [.rest name]) (hline : '\n' ∉ behind) :
    ∃ m, resolve routes ('/' :: behind) = some m ∧
      0 ≤ Specificity.difference m.route.specificity [0] := by
  have haccepts : c.accepts ('/' :: behind) := by
    rw [Route.accepts, Route.captures?_of_rest hrest hline]
    rfl
  cases hresolve : resolve routes ('/' :: behind) with
  | none =>
      rw [resolve_eq_none_iff.1 hresolve c hc] at haccepts
      cases haccepts
  | some m =>
      refine ⟨m, rfl, ?_⟩
      have hless := (firstBest_of_resolve hresolve).difference_nonpos hc haccepts
      rw [Route.specificity_of_rest hrest, Specificity.difference_swap] at hless
      omega

theorem Match.params_of_rest {m : Match} {name behind : Text}
    (hrest : m.route.segments = [.rest name]) (h : m.captures = [behind]) :
    m.params = [(name, behind)] := by
  rw [params, h, Route.pattern, Pattern.ofSegments, hrest]
  rfl

namespace Router

theorem table_eq_ok {r : Router} {table : Table} (h : r.table = .ok table) :
    table = r.slot.current := by
  unfold Router.table at h
  split at h
  · exact (Except.ok.inj h).symm
  · cases h

/-- With a rest alone among the routes of the current table, an answered request has a match, which
is at least as specific as the rest.  If no other route matches, it is the match of this route,
whose parameter is the normal form without its first slash. -/
theorem find_catchAll (r : Router) (c : Route) (hc : c ∈ r.slot.current.routes) (name : Text)
    (hrest : c.segments = [.rest name]) (request : Text) (result : Option Match)
    (h : r.find request = .ok result) :
    ∃ m behind, result = some m ∧
      r.options.normalization.normalize request = .ok ('/' :: behind) ∧
      0 ≤ Specificity.difference m.route.specificity [0] ∧
      ((∀ other ∈ r.slot.current.routes, other.accepts ('/' :: behind) → other = c) →
        m.route = c ∧ m.params = [(name, behind)]) := by
  obtain ⟨table, path, htable, hpath, hresolve⟩ := find_eq_ok h
  obtain rfl := table_eq_ok htable
  have hnormal := Normalization.isNormal_of_normalize hpath
  obtain ⟨behind, rfl⟩ := List.head?_eq_some_iff.1 hnormal.rooted
  have hline : '\n' ∉ behind := fun hmem => hnormal.newline_notMem (List.mem_cons_of_mem _ hmem)
  obtain ⟨m, hm, hspecificity⟩ := exists_resolve_of_rest hc hrest hline
  refine ⟨m, behind, hresolve.symm.trans hm, hpath, hspecificity, ?_⟩
  intro honly
  have hbest := firstBest_of_resolve hm
  have hroute : m.route = c := honly m.route hbest.mem hbest.accepts
  have hcaptures : m.captures = [behind] := by
    have heq := hbest.captures_eq
    rw [hroute, Route.captures?_of_rest hrest hline] at heq
    exact (Option.some.inj heq).symm
  exact ⟨hroute, Match.params_of_rest (hroute ▸ hrest) hcaptures⟩

/-- The route `/[all:**]`. -/
def catchAllRoute : Route where
  source := ⟨[]⟩
  canonical := "/[all:**]".toList
  segments := [.rest "all".toList]
  layout := none
  segments_eq := by decide +kernel

/-- A router with `catchAllRoute` behind `docsRoute`. -/
def catchAllRouter : Router := { docsRouter with slot := ⟨⟨[docsRoute, catchAllRoute], none⟩⟩ }

/-- What the other route refuses is left to the rest, down to nothing behind the slash. -/
theorem find_catchAll_root :
    catchAllRouter.find "//#top".toList = .ok (some ⟨catchAllRoute, [[]]⟩) ∧
    0 ≤ Specificity.difference catchAllRoute.specificity [0] ∧
    Match.params ⟨catchAllRoute, [[]]⟩ = [("all".toList, [])] := by
  have hmem : catchAllRoute ∈ catchAllRouter.slot.current.routes := by
    simp [catchAllRouter]
  have hfind : catchAllRouter.find "//#top".toList = .ok (some ⟨catchAllRoute, [[]]⟩) := by cbv
  have hnormal : catchAllRouter.options.normalization.normalize "//#top".toList = .ok ['/'] := by
    decide +kernel
  obtain ⟨m, behind, hresult, hpath, hspecificity, honly⟩ :=
    find_catchAll catchAllRouter catchAllRoute hmem _ rfl _ _ hfind
  obtain rfl := Option.some.inj hresult
  obtain rfl : behind = [] := by
    rw [hnormal] at hpath
    exact (List.cons.inj (Except.ok.inj hpath)).2.symm
  refine ⟨hfind, hspecificity, (honly ?_).2⟩
  intro other hother haccepts
  obtain rfl | rfl : other = docsRoute ∨ other = catchAllRoute := by
    simpa [catchAllRouter] using hother
  · have hrefuses : docsRoute.accepts ['/'] = false := by cbv
    rw [hrefuses] at haccepts
    cases haccepts
  · rfl

end Router

end FileRouting
