import FileRouting.Table.Building
import FileRouting.Proofs.Lists
import Mathlib.Data.List.Basic
import Mathlib.Data.List.Pairwise

/-! # The order of routes

Routes are ordered by logical path and then by location, which is a total preorder: two routes are
equal in it exactly when they agree in both.  Sorting by it therefore yields one and the same list
of logical paths for all lists that hold the same logical paths, and one and the same list of routes
for all permutations of routes that can be told apart. -/

namespace FileRouting

theorem Disk.Component.key_injective : Function.Injective Disk.Component.key := by
  intro a b h
  have hbytes : Function.Injective UInt8.toNat := fun _ _ => UInt8.toNat_inj.1
  cases a with
  | name n =>
      cases b with
      | name m =>
          rw [key, key, List.cons.injEq] at h
          rw [List.map_injective_iff.2 hbytes h.2]
      | _ => simp [key] at h
  | _ => cases b <;> simp [key] at h ⊢

theorem Disk.Path.same_of_order_eq {p q : Disk.Path} (h : p.order q = .eq) : p.Same q :=
  List.map_injective_iff.2 Disk.Component.key_injective (Std.LawfulEqCmp.eq_of_compare h)

namespace Route

theorem order_eq_compareLex : order = compareLex (compareOn canonical)
    (compareOn fun r => r.source.components.map Disk.Component.key) := rfl

instance : Std.TransCmp order := by
  rw [order_eq_compareLex]
  infer_instance

theorem isLE_canonical_of_order {a b : Route} (h : (a.order b).isLE) :
    (compare a.canonical b.canonical).isLE := by
  rw [order] at h
  generalize compare a.canonical b.canonical = o at h ⊢
  cases o with
  | gt => cases h
  | lt | eq => rfl

theorem agree_of_order_eq {a b : Route} (h : a.order b = .eq) :
    a.canonical = b.canonical ∧ a.source.Same b.source := by
  rw [order, Ordering.then_eq_eq] at h
  exact ⟨Std.LawfulEqCmp.eq_of_compare h.1, Disk.Path.same_of_order_eq h.2⟩

theorem sort_perm (routes : List Route) : (sort routes).Perm routes :=
  List.mergeSort_perm routes _

theorem pairwise_sort (routes : List Route) :
    (sort routes).Pairwise fun a b => (a.order b).isLE :=
  pairwise_mergeSort_isLE routes

/-- The sorted list of logical paths depends on how often each logical path occurs only. -/
theorem map_canonical_sort {as bs : List Route}
    (h : (as.map canonical).Perm (bs.map canonical)) :
    (sort as).map canonical = (sort bs).map canonical := by
  have hsorted : ∀ routes : List Route,
      ((sort routes).map canonical).Pairwise fun p q => (compare p q).isLE := fun routes =>
    List.pairwise_map.2 ((pairwise_sort routes).imp isLE_canonical_of_order)
  apply List.Perm.eq_of_pairwise _ (hsorted as) (hsorted bs)
  · exact ((sort_perm as).map canonical).trans (h.trans ((sort_perm bs).map canonical).symm)
  · intro p q _ _ hpq hqp
    exact Std.LawfulEqCmp.eq_of_compare (Std.OrientedCmp.isLE_antisymm hpq hqp)

/-- If no two routes agree in logical path and location, the sorted list does not depend on the
order they are given in. -/
theorem sort_eq_of_perm {as bs : List Route} (h : as.Perm bs)
    (hdistinct : as.Pairwise fun a b => ¬ (a.canonical = b.canonical ∧ a.source.Same b.source)) :
    sort as = sort bs := by
  have hsymmetric : Std.Symm fun a b : Route =>
      ¬ (a.canonical = b.canonical ∧ a.source.Same b.source) :=
    ⟨fun _ _ hne hagree => hne ⟨hagree.1.symm, hagree.2.symm⟩⟩
  apply List.Perm.eq_of_pairwise _ (pairwise_sort as) (pairwise_sort bs)
  · exact (sort_perm as).trans (h.trans (sort_perm bs).symm)
  · intro a b ha hb hab hba
    have hagree := agree_of_order_eq (Std.OrientedCmp.isLE_antisymm hab hba)
    by_contra hne
    have ha' : a ∈ as := (sort_perm as).mem_iff.1 ha
    have hb' : b ∈ as := h.mem_iff.2 ((sort_perm bs).mem_iff.1 hb)
    exact hdistinct.forall ha' hb' hne hagree

end Route

namespace Table

theorem ofRoutes_reject_eq_ok {routes : List Route} {t : Table}
    (h : ofRoutes .reject routes = .ok t) :
    Route.firstConflict? [] routes = none ∧ t = ⟨Route.sort routes, none⟩ := by
  unfold ofRoutes TieBreak.arrange at h
  cases hconflict : Route.firstConflict? [] routes with
  | none =>
      rw [hconflict] at h
      cases h
      exact ⟨rfl, rfl⟩
  | some pair =>
      rw [hconflict] at h
      cases h

/-- A tie break other than `enumeration` sorts the routes, unless it refuses them. -/
theorem eq_sort_of_ofRoutes {b : TieBreak} (hb : b ≠ .enumeration) {routes : List Route} {t : Table}
    (h : ofRoutes b routes = .ok t) : t = ⟨Route.sort routes, none⟩ := by
  cases b with
  | canonicalPath =>
      cases h
      rfl
  | enumeration => exact absurd rfl hb
  | reject => exact (ofRoutes_reject_eq_ok h).2

theorem routes_perm_of_ofRoutes {b : TieBreak} {routes : List Route} {t : Table}
    (h : ofRoutes b routes = .ok t) : t.routes.Perm routes := by
  by_cases hb : b = .enumeration
  · subst hb
    cases h
    exact .refl _
  · rw [eq_sort_of_ofRoutes hb h]
    exact Route.sort_perm routes

end Table

end FileRouting
