import FileRouting.Proofs.SpecificityOrder
import FileRouting.Table.Basic
import Mathlib

/-! # Resolution finds the first maximum

The search keeps the best match so far.  `Answers` is its invariant: it says of an answer that it is
right for the routes seen, where a match is right if no route before it is as specific and none
behind it is more specific.  `answers_step` is one step of the search and `answers_resolve` a whole
search. -/

namespace FileRouting

namespace Match

/-- A match of a route of the list, which is less specific than no route of the list that matches
the path, and more specific than those before it. -/
structure FirstBest (path : Text) (routes : List Route) (m : Match) : Prop where
  captures_eq : m.route.captures? path = some m.captures
  split : ∃ before after, routes = before ++ m.route :: after ∧
    (∀ r ∈ before, r.accepts path →
      Specificity.difference r.specificity m.route.specificity < 0) ∧
    ∀ r ∈ after, r.accepts path →
      Specificity.difference r.specificity m.route.specificity ≤ 0

namespace FirstBest

variable {path : Text} {routes : List Route} {m : Match}

theorem mem (h : FirstBest path routes m) : m.route ∈ routes := by
  obtain ⟨before, after, rfl, _, _⟩ := h.split
  simp

theorem accepts (h : FirstBest path routes m) : m.route.accepts path := by
  rw [Route.accepts, h.captures_eq]
  rfl

theorem difference_nonpos (h : FirstBest path routes m) {r : Route} (hr : r ∈ routes)
    (haccepts : r.accepts path) :
    Specificity.difference r.specificity m.route.specificity ≤ 0 := by
  obtain ⟨before, after, rfl, hbefore, hafter⟩ := h.split
  rcases List.mem_append.1 hr with hr | hr
  · exact Int.le_of_lt (hbefore r hr haccepts)
  · rcases List.mem_cons.1 hr with rfl | hr
    · exact Int.le_of_eq (Specificity.difference_self _)
    · exact hafter r hr haccepts

theorem append (h : FirstBest path routes m) {r : Route}
    (hr : r.accepts path → Specificity.difference r.specificity m.route.specificity ≤ 0) :
    FirstBest path (routes ++ [r]) m := by
  obtain ⟨before, after, rfl, hbefore, hafter⟩ := h.split
  refine ⟨h.captures_eq, before, after ++ [r], by simp, hbefore, ?_⟩
  intro other hother
  rcases List.mem_append.1 hother with hother | hother
  · exact hafter other hother
  · rw [List.mem_singleton.1 hother]
    exact hr

/-- Positions instead of a split of the list. -/
theorem exists_index (h : FirstBest path routes m) : ∃ i : Nat, routes[i]? = some m.route ∧
    ∀ (j : Nat) (r : Route), routes[j]? = some r → r.accepts path →
      Specificity.difference r.specificity m.route.specificity ≤ 0 ∧
      (j < i → Specificity.difference r.specificity m.route.specificity < 0) := by
  obtain ⟨before, after, hroutes, hbefore, _⟩ := h.split
  refine ⟨before.length, by simp [hroutes], ?_⟩
  intro j r hj haccepts
  refine ⟨h.difference_nonpos (List.mem_of_getElem? hj) haccepts, ?_⟩
  intro hlt
  rw [hroutes, List.getElem?_append_left hlt] at hj
  exact hbefore r (List.mem_of_getElem? hj) haccepts

end FirstBest

/-- What an answer says of the routes that it is given for. -/
def Answers (path : Text) (routes : List Route) : Option Match → Prop
  | none => ∀ r ∈ routes, r.accepts path = false
  | some m => FirstBest path routes m

theorem answers_step {path : Text} {seen : List Route} {best : Option Match}
    (h : Answers path seen best) (r : Route) :
    Answers path (seen ++ [r]) (Match.step path best r) := by
  cases hcaptures : r.captures? path with
  | none =>
      have hrefuses : r.accepts path = false := by rw [Route.accepts, hcaptures]; rfl
      cases best with
      | none =>
          simp only [step, hcaptures]
          intro other hother
          rcases List.mem_append.1 hother with hother | hother
          · exact h other hother
          · rw [List.mem_singleton.1 hother]
            exact hrefuses
      | some m =>
          simp only [step, hcaptures]
          exact FirstBest.append h fun haccepts => by simp [hrefuses] at haccepts
  | some captured =>
      cases best with
      | none =>
          simp only [step, hcaptures]
          refine ⟨hcaptures, seen, [], rfl, ?_, by simp⟩
          intro other hother haccepts
          simp [h other hother] at haccepts
      | some m =>
          have hbest : FirstBest path seen m := h
          simp only [step, hcaptures]
          split
          · next hmore =>
            refine ⟨hcaptures, seen, [], rfl, ?_, by simp⟩
            intro other hother haccepts
            -- the new best beats all routes seen, because the old one does
            have hless : Specificity.difference m.route.specificity r.specificity < 0 := by
              have hswap := Specificity.difference_swap r.specificity m.route.specificity
              omega
            exact Specificity.difference_neg_of_nonpos_of_neg
              (hbest.difference_nonpos hother haccepts) hless
          · next hmore => exact hbest.append fun _ => by omega

theorem answers_foldl {path : Text} {seen : List Route} {best : Option Match}
    (h : Answers path seen best) (routes : List Route) :
    Answers path (seen ++ routes) (routes.foldl (Match.step path) best) := by
  induction routes generalizing seen best with
  | nil => simpa using h
  | cons r routes ih =>
      rw [List.foldl_cons]
      have hlater := ih (answers_step h r)
      rwa [List.append_assoc] at hlater

theorem answers_resolve (routes : List Route) (path : Text) :
    Answers path routes (resolve routes path) := by
  have hstart : Answers path [] none := by simp [Answers]
  exact answers_foldl hstart routes

end Match

theorem firstBest_of_resolve {routes : List Route} {path : Text} {m : Match}
    (h : resolve routes path = some m) : m.FirstBest path routes := by
  have hanswers := Match.answers_resolve routes path
  rwa [h] at hanswers

theorem resolve_eq_none_iff {routes : List Route} {path : Text} :
    resolve routes path = none ↔ ∀ r ∈ routes, r.accepts path = false := by
  have hanswers := Match.answers_resolve routes path
  constructor
  · intro h
    rwa [h] at hanswers
  · intro h
    cases hresolve : resolve routes path with
    | none => rfl
    | some m =>
        rw [hresolve] at hanswers
        have haccepts := Match.FirstBest.accepts hanswers
        rw [h _ (Match.FirstBest.mem hanswers)] at haccepts
        cases haccepts

theorem specificity_eq_of_perm {routes others : List Route} (hperm : routes.Perm others)
    {path : Text} {m n : Match} (hm : resolve routes path = some m)
    (hn : resolve others path = some n) : n.route.specificity = m.route.specificity := by
  have hfirst := firstBest_of_resolve hm
  have hsecond := firstBest_of_resolve hn
  apply Specificity.eq_of_difference_nonpos
  · exact hfirst.difference_nonpos (hperm.mem_iff.2 hsecond.mem) hsecond.accepts
  · exact hsecond.difference_nonpos (hperm.mem_iff.1 hfirst.mem) hfirst.accepts

theorem map_specificity_resolve_perm {routes others : List Route} (hperm : routes.Perm others)
    (path : Text) :
    (resolve others path).map (·.route.specificity) =
      (resolve routes path).map (·.route.specificity) := by
  cases hm : resolve routes path with
  | none =>
      have hnone : resolve others path = none :=
        resolve_eq_none_iff.2 fun r hr => resolve_eq_none_iff.1 hm r (hperm.mem_iff.2 hr)
      rw [hnone]
  | some m =>
      cases hn : resolve others path with
      | none =>
          have hrefuses := resolve_eq_none_iff.1 hn m.route
            (hperm.mem_iff.1 (firstBest_of_resolve hm).mem)
          rw [(firstBest_of_resolve hm).accepts] at hrefuses
          cases hrefuses
      | some n => rw [Option.map_some, Option.map_some, specificity_eq_of_perm hperm hm hn]

theorem resolve_perm_of_unique {routes others : List Route} (hperm : routes.Perm others)
    {path : Text} {m : Match} (hm : resolve routes path = some m)
    (hunique : ∀ r ∈ routes, r.accepts path → r.specificity = m.route.specificity →
      r = m.route) : resolve others path = some m := by
  have hmap := map_specificity_resolve_perm hperm path
  rw [hm] at hmap
  obtain ⟨n, hn, hspecificity⟩ := Option.map_eq_some_iff.1 hmap
  have hbest := firstBest_of_resolve hn
  have hroute : n.route = m.route :=
    hunique n.route (hperm.mem_iff.2 hbest.mem) hbest.accepts hspecificity
  have hcaptures : some n.captures = some m.captures := by
    rw [← hbest.captures_eq, ← (firstBest_of_resolve hm).captures_eq, hroute]
  obtain ⟨route, captures⟩ := n
  cases m
  cases hroute
  cases hcaptures
  exact hn

/-- A path resolves to the first of the most specific routes that match it, with what this route
captures, and to nothing exactly when no route matches.  The order of the routes settles ties
only. -/
theorem resolve_first_maximum (routes : List Route) (path : Text) :
    (resolve routes path = none ↔ ∀ r ∈ routes, r.accepts path = false) ∧
    (∀ m, resolve routes path = some m →
      m.route.captures? path = some m.captures ∧
      m.params = m.route.pattern.names.zip m.captures ∧
      ∃ i : Nat, routes[i]? = some m.route ∧
        ∀ (j : Nat) (r : Route), routes[j]? = some r → r.accepts path →
          Specificity.difference r.specificity m.route.specificity ≤ 0 ∧
          (j < i → Specificity.difference r.specificity m.route.specificity < 0)) ∧
    ∀ others, routes.Perm others →
      (resolve others path).map (·.route.specificity) =
        (resolve routes path).map (·.route.specificity) ∧
      ∀ m, resolve routes path = some m →
        (∀ r ∈ routes, r.accepts path → r.specificity = m.route.specificity → r = m.route) →
          resolve others path = some m := by
  refine ⟨resolve_eq_none_iff, ?_, ?_⟩
  · intro m hm
    have hbest := firstBest_of_resolve hm
    exact ⟨hbest.captures_eq, rfl, hbest.exists_index⟩
  · intro others hperm
    exact ⟨map_specificity_resolve_perm hperm path,
      fun m hm => resolve_perm_of_unique hperm hm⟩

/-- The route `/a`. -/
def Route.justA : Route := ⟨⟨[]⟩, "/a".toList, [.literal ['a']], none, by cbv⟩

/-- The route `/[x]`. -/
def Route.justAny : Route := ⟨⟨[]⟩, "/[x]".toList, [.wildcard ['x']], none, by cbv⟩

/-- The more specific route is found wherever it stands. -/
theorem resolve_first_maximum_justA :
    resolve [.justAny, .justA] ['/', 'a'] = some ⟨.justA, []⟩ ∧
    resolve [.justA, .justAny] ['/', 'a'] = some ⟨.justA, []⟩ := by
  have hresolve : resolve [.justAny, .justA] ['/', 'a'] = some ⟨.justA, []⟩ := by cbv
  have hunique : ∀ r ∈ [Route.justAny, Route.justA], r.accepts ['/', 'a'] →
      r.specificity = Route.justA.specificity → r = Route.justA := by
    intro r hr _ hspecificity
    obtain rfl | rfl : r = Route.justAny ∨ r = Route.justA := by simpa using hr
    · exact absurd hspecificity (by decide)
    · rfl
  obtain ⟨_, _, hperm⟩ := resolve_first_maximum [.justAny, .justA] ['/', 'a']
  exact ⟨hresolve, (hperm [.justA, .justAny] (.swap ..)).2 _ hresolve hunique⟩

end FileRouting
