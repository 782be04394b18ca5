import FileRouting.Proofs.Conflict
import FileRouting.Proofs.RouteOrder

/-! # Ambiguity in tables without conflicts

The tie break `reject` refuses routes that conflict.  A table is unambiguous when no path is matched
by two of its routes with equal specificity.  The first does not give the second: two routes with
several rests can share a path without being in conflict.  The module says exactly when. -/

namespace FileRouting

namespace Route

/-- Conflicts are between segments, because these determine the specificity. -/
theorem conflicts_eq (a b : Route) : a.conflicts b = Segment.conflict a.segments b.segments := by
  cases hconflict : Segment.conflict a.segments b.segments with
  | false => simp [conflicts, hconflict]
  | true =>
      simp [conflicts, hconflict, specificity, Segment.ofSegments_eq_of_conflict hconflict]

theorem conflicts_comm (a b : Route) : a.conflicts b = b.conflicts a := by
  rw [conflicts_eq, conflicts_eq, Segment.conflict_comm]

/-- If no conflict is found, there is none, neither with the earlier routes nor in the list. -/
theorem conflicts_of_firstConflict?_eq_none {earlier routes : List Route}
    (h : firstConflict? earlier routes = none) :
    (∀ e ∈ earlier, ∀ r ∈ routes, e.conflicts r = false) ∧
      routes.Pairwise fun a b => a.conflicts b = false := by
  induction routes generalizing earlier with
  | nil => exact ⟨by simp, .nil⟩
  | cons r routes ih =>
      rw [firstConflict?] at h
      split at h
      · cases h
      · next hnone =>
        obtain ⟨hearlier, hroutes⟩ := ih h
        have hr : ∀ e ∈ earlier, e.conflicts r = false := by
          simpa using hnone
        -- for the routes behind it, `r` is an earlier one
        refine ⟨?_, .cons ?_ hroutes⟩
        · intro e he
          rw [List.forall_mem_cons]
          exact ⟨hr e he, hearlier e (List.mem_append_left [r] he)⟩
        · exact hearlier r (by simp)

end Route

namespace Table

/-- No path is matched by two routes of the table with equal specificity. -/
def Unambiguous (t : Table) : Prop :=
  ∀ (path : Text) (i j : Nat) (a b : Route), t.routes[i]? = some a → t.routes[j]? = some b →
    i ≠ j → a.accepts path → b.accepts path → a.specificity ≠ b.specificity

theorem pairwise_conflicts_of_ofRoutes {routes : List Route} {t : Table}
    (h : ofRoutes .reject routes = .ok t) :
    t.routes.Pairwise fun a b => a.conflicts b = false := by
  obtain ⟨hnone, rfl⟩ := ofRoutes_reject_eq_ok h
  have hpairwise := (Route.conflicts_of_firstConflict?_eq_none hnone).2
  -- sorting keeps the pairs, because conflicts do not depend on the order
  refine (List.Perm.pairwise_iff ?_ (Route.sort_perm routes)).2 hpairwise
  intro a b hab
  rwa [Route.conflicts_comm]

theorem conflict_of_ofRoutes {routes : List Route} {t : Table}
    (h : ofRoutes .reject routes = .ok t) {i j : Nat} {a b : Route}
    (ha : t.routes[i]? = some a) (hb : t.routes[j]? = some b) (hne : i ≠ j)
    (hspecificity : a.specificity = b.specificity) :
    Segment.conflict a.segments b.segments = false := by
  have hpairwise := pairwise_conflicts_of_ofRoutes h
  rw [List.pairwise_iff_getElem] at hpairwise
  obtain ⟨hi, rfl⟩ := List.getElem?_eq_some_iff.1 ha
  obtain ⟨hj, rfl⟩ := List.getElem?_eq_some_iff.1 hb
  have hconflicts : t.routes[i].conflicts t.routes[j] = false := by
    rcases Nat.lt_or_gt_of_ne hne with hlt | hlt
    · exact hpairwise i j hi hj hlt
    · rw [Route.conflicts_comm]
      exact hpairwise j i hj hi hlt
  rw [Route.conflicts, hspecificity] at hconflicts
  simpa using hconflicts

/-- Exactly the routes with two rests or more can be ambiguous in a table without conflicts, and
they are if they can be laid over the same components.  Unless a segment insists on a line feed,
this is so if their segments before the first and behind the last rest conflict. -/
theorem unambiguous_iff_of_reject {routes : List Route} {t : Table}
    (h : ofRoutes .reject routes = .ok t) :
    (t.Unambiguous ↔
      ∀ (i j : Nat) (a b : Route), t.routes[i]? = some a → t.routes[j]? = some b → i ≠ j →
        a.specificity = b.specificity → 1 < Segment.restCount a.segments →
          Segment.sharePath a.segments b.segments = false) ∧
    ∀ a b : Route, a.specificity = b.specificity → 1 < Segment.restCount a.segments →
      (∀ s ∈ a.segments ++ b.segments, s.Fits) →
        (Segment.sharePath a.segments b.segments ↔
          Segment.conflict (Segment.front a.segments) (Segment.front b.segments) ∧
          Segment.conflict (Segment.back a.segments) (Segment.back b.segments)) := by
  refine ⟨⟨?_, ?_⟩, ?_⟩
  · intro hunambiguous i j a b ha hb hne hspecificity _
    rw [Bool.eq_false_iff]
    intro hshare
    obtain ⟨path, hpa, hpb⟩ := Route.exists_common_path_iff_sharePath.2 hshare
    exact hunambiguous path i j a b ha hb hne hpa hpb hspecificity
  · intro hshare path i j a b ha hb hne hpa hpb hspecificity
    have hcommon : Segment.sharePath a.segments b.segments :=
      Route.exists_common_path_iff_sharePath.1 ⟨path, hpa, hpb⟩
    have hkinds := Segment.map_kind_eq_of_specificity_eq hspecificity
    by_cases hone : Segment.restCount a.segments ≤ 1
    · -- one rest is not enough to escape the test of the tie break
      have hconflict := Segment.conflict_of_sharePath a.wellFormed b.wellFormed hkinds hone hcommon
      rw [conflict_of_ofRoutes h ha hb hne hspecificity] at hconflict
      cases hconflict
    · rw [hshare i j a b ha hb hne hspecificity (by omega)] at hcommon
      cases hcommon
  · intro a b hspecificity hmany hfits
    rw [List.forall_mem_append] at hfits
    exact Segment.sharePath_iff_conflict_ends a.wellFormed b.wellFormed
      (Segment.map_kind_eq_of_specificity_eq hspecificity) hmany hfits.1 hfits.2

/-! Two pairs of routes with two rests: what differs stands between the rests or in front of them.
-/

def restsAroundA : Route :=
  ⟨⟨[]⟩, "/[r:**]/a/[s:**]".toList, [.rest ['r'], .literal ['a'], .rest ['s']], none, by cbv⟩

def restsAroundB : Route :=
  ⟨⟨[]⟩, "/[r:**]/b/[s:**]".toList, [.rest ['r'], .literal ['b'], .rest ['s']], none, by cbv⟩

def restsBehindA : Route :=
  ⟨⟨[]⟩, "/a/[r:**]/[s:**]".toList, [.literal ['a'], .rest ['r'], .rest ['s']], none, by cbv⟩

def restsBehindB : Route :=
  ⟨⟨[]⟩, "/b/[r:**]/[s:**]".toList, [.literal ['b'], .rest ['r'], .rest ['s']], none, by cbv⟩

theorem unambiguous_restsBehind :
    ofRoutes .reject [restsBehindA, restsBehindB] = .ok ⟨[restsBehindA, restsBehindB], none⟩ ∧
    Unambiguous ⟨[restsBehindA, restsBehindB], none⟩ ∧
    ¬ Segment.sharePath restsBehindA.segments restsBehindB.segments := by
  have hbuilt : ofRoutes .reject [restsBehindA, restsBehindB] =
      .ok ⟨[restsBehindA, restsBehindB], none⟩ := by cbv
  obtain ⟨hiff, hends⟩ := unambiguous_iff_of_reject hbuilt
  refine ⟨hbuilt, hiff.2 ?_, ?_⟩
  · intro i j a b ha hb hne _ _
    have hdistinct : a ≠ b := by
      rintro rfl
      have hnodup : [restsBehindA, restsBehindB].Nodup := by decide
      obtain ⟨hi, _⟩ := List.getElem?_eq_some_iff.1 ha
      exact hne ((List.getElem?_inj hi hnodup).1 (ha.trans hb.symm))
    have hleft : a = restsBehindA ∨ a = restsBehindB := by
      simpa using List.mem_of_getElem? ha
    have hright : b = restsBehindA ∨ b = restsBehindB := by
      simpa using List.mem_of_getElem? hb
    obtain rfl | rfl := hleft <;> obtain rfl | rfl := hright
    · exact absurd rfl hdistinct
    · decide
    · decide
    · exact absurd rfl hdistinct
  · have hfits : ∀ s ∈ restsBehindA.segments ++ restsBehindB.segments, s.Fits := by
      simp only [restsBehindA, restsBehindB, List.cons_append, List.nil_append,
        List.forall_mem_cons, List.not_mem_nil, false_imp_iff, implies_true, and_true]
      exact ⟨⟨['a'], by decide⟩, ⟨[], by decide⟩, ⟨[], by decide⟩, ⟨['b'], by decide⟩,
        ⟨[], by decide⟩, ⟨[], by decide⟩⟩
    have hfront : ¬ Segment.conflict (Segment.front restsBehindA.segments)
        (Segment.front restsBehindB.segments) := by decide
    exact fun hshare =>
      hfront ((hends restsBehindA restsBehindB (by decide) (by decide) hfits).1 hshare).1

/-- A table without conflicts that is ambiguous: the first rest of either route can reach past what
stands behind that of the other. -/
theorem ambiguous_restsAround :
    ofRoutes .reject [restsAroundA, restsAroundB] = .ok ⟨[restsAroundA, restsAroundB], none⟩ ∧
    ¬ Unambiguous ⟨[restsAroundA, restsAroundB], none⟩ := by
  refine ⟨by cbv, ?_⟩
  intro h
  have ha : restsAroundA.accepts "/x/a/b/y".toList := by cbv
  have hb : restsAroundB.accepts "/x/a/b/y".toList := by cbv
  have hspecificity : restsAroundA.specificity = restsAroundB.specificity := by cbv
  exact h _ 0 1 restsAroundA restsAroundB rfl rfl (by decide) ha hb hspecificity

end Table

end FileRouting
