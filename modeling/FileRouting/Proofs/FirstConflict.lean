import FileRouting.Proofs.Independence

/-! # Which conflict is reported

The tie break `reject` goes through the routes in their order and stops at the first one that
conflicts with one before it.  `Route.Reported` says by positions which two routes these are.  What
the scan has passed without a stop is free of conflicts, and this carries the induction
(`Route.firstConflict?_eq_some_iff`).  That routes are compared only where their specificities are
equal hides no conflict, because conflicting routes are equally specific. -/

namespace FileRouting

namespace Route

/-- Two routes of a list and their positions: the second is the first route that conflicts with one
before it, and the first is the first one that it conflicts with. -/
structure Reported (routes : List Route) (i j : Nat) (first second : Route) : Prop where
  first_eq : routes[i]? = some first
  second_eq : routes[j]? = some second
  lt : i < j
  conflict : Segment.conflict first.segments second.segments
  least_second : ∀ (k l : Nat) (a b : Route), routes[k]? = some a → routes[l]? = some b → k < l →
    l < j → Segment.conflict a.segments b.segments = false
  least_first : ∀ (k : Nat) (a : Route), routes[k]? = some a → k < i →
    Segment.conflict a.segments second.segments = false

/-- The scan stops at the first route that conflicts with an earlier one, and not before. -/
theorem firstConflict?_eq_some_iff {earlier routes : List Route} {first second : Route} :
    firstConflict? earlier routes = some (first, second) ↔
      ∃ before after, routes = before ++ second :: after ∧ firstConflict? earlier before = none ∧
        (earlier ++ before).find? (fun e => e.conflicts second) = some first := by
  induction routes generalizing earlier with
  | nil => simp [firstConflict?]
  | cons r routes ih =>
      rw [firstConflict?]
      -- either the scan stops at `r`, or `r` joins the earlier routes
      cases hfind : earlier.find? fun e => e.conflicts r with
      | some e =>
          constructor
          · intro heq
            obtain ⟨rfl, rfl⟩ := Prod.mk.inj (Option.some.inj heq)
            exact ⟨[], routes, rfl, rfl, by rwa [List.append_nil]⟩
          · rintro ⟨before, after, hroutes, hbefore, hfirst⟩
            cases before with
            | nil =>
                obtain ⟨rfl, rfl⟩ := List.cons.inj hroutes
                rw [List.append_nil, hfind] at hfirst
                rw [Option.some.inj hfirst]
            | cons b before =>
                obtain ⟨rfl, rfl⟩ := List.cons.inj hroutes
                rw [firstConflict?, hfind] at hbefore
                cases hbefore
      | none =>
          simp only [ih]
          constructor
          · rintro ⟨before, after, rfl, hbefore, hfirst⟩
            refine ⟨r :: before, after, rfl, ?_, by simpa using hfirst⟩
            rw [firstConflict?, hfind]
            exact hbefore
          · rintro ⟨before, after, hroutes, hbefore, hfirst⟩
            cases before with
            | nil =>
                obtain ⟨rfl, rfl⟩ := List.cons.inj hroutes
                rw [List.append_nil, hfind] at hfirst
                cases hfirst
            | cons b before =>
                obtain ⟨rfl, rfl⟩ := List.cons.inj hroutes
                rw [firstConflict?, hfind] at hbefore
                exact ⟨before, after, rfl, hbefore, by simpa using hfirst⟩

/-- The scan finds the pair that is first by positions. -/
theorem firstConflict?_eq_some_iff_reported {routes : List Route} {first second : Route} :
    firstConflict? [] routes = some (first, second) ↔
      ∃ i j, Reported routes i j first second := by
  simp only [firstConflict?_eq_some_iff, firstConflict?_eq_none_iff, List.nil_append,
    List.find?_eq_some_iff_getElem, conflicts_eq, List.pairwise_iff_getElem, Bool.not_eq_true']
  constructor
  · rintro ⟨before, after, rfl, hbefore, hconflict, i, hi, rfl, hleast⟩
    refine ⟨i, before.length, ?_, by simp, hi, hconflict, ?_, ?_⟩
    · rw [List.getElem?_append_left hi, List.getElem?_eq_getElem hi]
    · intro k l a b ha hb hkl hl
      rw [List.getElem?_append_left (by omega)] at ha hb
      obtain ⟨hk, rfl⟩ := List.getElem?_eq_some_iff.1 ha
      obtain ⟨_, rfl⟩ := List.getElem?_eq_some_iff.1 hb
      exact hbefore k l hk hl hkl
    · intro k a ha hk
      rw [List.getElem?_append_left (by omega)] at ha
      obtain ⟨_, rfl⟩ := List.getElem?_eq_some_iff.1 ha
      exact hleast k hk
  · rintro ⟨i, j, h⟩
    obtain ⟨hj, hsecond⟩ := List.getElem?_eq_some_iff.1 h.second_eq
    obtain ⟨hi, hfirst⟩ := List.getElem?_eq_some_iff.1 h.first_eq
    have hlength : (routes.take j).length = j := List.length_take_of_le (Nat.le_of_lt hj)
    refine ⟨routes.take j, routes.drop (j + 1), ?_, ?_, h.conflict, i, ?_, ?_, ?_⟩
    · rw [← hsecond, List.getElem_cons_drop, List.take_append_drop]
    · intro k l hk hl hkl
      rw [hlength] at hk hl
      rw [List.getElem_take, List.getElem_take]
      exact h.least_second k l _ _ (List.getElem?_eq_getElem _) (List.getElem?_eq_getElem _) hkl hl
    · rw [hlength]
      exact h.lt
    · rw [List.getElem_take, hfirst]
    · intro k hk
      rw [List.getElem_take]
      exact h.least_first k _ (List.getElem?_eq_getElem _) hk

end Route

namespace Table

theorem ofRoutes_reject_eq_error_iff {routes : List Route} {e : TableError} :
    ofRoutes .reject routes = .error e ↔ ∃ first second,
      Route.firstConflict? [] routes = some (first, second) ∧ e = .ambiguous first second := by
  rw [ofRoutes, TieBreak.arrange]
  cases Route.firstConflict? [] routes with
  | none => simp [Except.map]
  | some pair =>
      obtain ⟨first, second⟩ := pair
      simp [Except.map, eq_comm]

/-- The tie break `reject` refuses exactly the lists in which two routes conflict.  It names the
first route that conflicts with an earlier one, behind the earliest such one, and conflicting routes
are always compared, because they are equally specific. -/
theorem reject_reports (routes : List Route) :
    ((∃ e, ofRoutes .reject routes = .error e) ↔ ∃ (i j : Nat) (a b : Route), i < j ∧
      routes[i]? = some a ∧ routes[j]? = some b ∧ Segment.conflict a.segments b.segments) ∧
    (∀ e, ofRoutes .reject routes = .error e ↔ ∃ i j first second,
      Route.Reported routes i j first second ∧ e = .ambiguous first second) ∧
    ∀ a b : Route, Segment.conflict a.segments b.segments → a.specificity = b.specificity := by
  have hreports : ∀ e, ofRoutes .reject routes = .error e ↔ ∃ i j first second,
      Route.Reported routes i j first second ∧ e = .ambiguous first second := by
    intro e
    rw [ofRoutes_reject_eq_error_iff]
    simp only [Route.firstConflict?_eq_some_iff_reported]
    constructor
    · rintro ⟨first, second, ⟨i, j, h⟩, rfl⟩
      exact ⟨i, j, first, second, h, rfl⟩
    · rintro ⟨i, j, first, second, h, rfl⟩
      exact ⟨first, second, ⟨i, j, h⟩, rfl⟩
  refine ⟨?_, hreports, fun a b h => Segment.ofSegments_eq_of_conflict h⟩
  constructor
  · rintro ⟨e, he⟩
    obtain ⟨i, j, first, second, h, _⟩ := (hreports e).1 he
    exact ⟨i, j, first, second, h.lt, h.first_eq, h.second_eq, h.conflict⟩
  · rintro ⟨i, j, a, b, hlt, ha, hb, hconflict⟩
    cases hbuilt : ofRoutes .reject routes with
    | error e => exact ⟨e, rfl⟩
    | ok t =>
        -- a table is built only of routes without conflicts
        have hpairwise := ofRoutes_reject_eq_ok_iff.1 ⟨t, hbuilt⟩
        obtain ⟨hi, rfl⟩ := List.getElem?_eq_some_iff.1 ha
        obtain ⟨hj, rfl⟩ := List.getElem?_eq_some_iff.1 hb
        have hnone := List.pairwise_iff_getElem.1 hpairwise i j hi hj hlt
        rw [Route.conflicts_eq, hconflict] at hnone
        cases hnone

/-- Conflicts are not transitive: the third route conflicts with each of the others, which do not
conflict, and the earlier one is reported with it. -/
theorem reject_reports_choices :
    Route.Reported [.choiceAB, .choiceCD, .choiceBC] 0 2 .choiceAB .choiceBC ∧
    Segment.conflict Route.choiceCD.segments Route.choiceBC.segments = true ∧
    ofRoutes .reject [.choiceAB, .choiceCD, .choiceBC] =
      .error (.ambiguous .choiceAB .choiceBC) ∧
    Route.choiceAB.specificity = Route.choiceBC.specificity := by
  have hshared : Segment.conflict Route.choiceAB.segments Route.choiceBC.segments = true := by
    decide
  have hreported : Route.Reported [.choiceAB, .choiceCD, .choiceBC] 0 2 .choiceAB .choiceBC := by
    refine ⟨rfl, rfl, by decide, hshared, ?_, by simp⟩
    intro k l a b ha hb hkl hl
    obtain rfl : l = 1 := by omega
    obtain rfl : k = 0 := by omega
    cases ha
    cases hb
    decide
  obtain ⟨_, hreports, hequal⟩ := reject_reports [.choiceAB, .choiceCD, .choiceBC]
  exact ⟨hreported, by decide, (hreports _).2 ⟨0, 2, _, _, hreported, rfl⟩, hequal _ _ hshared⟩

end Table

end FileRouting
