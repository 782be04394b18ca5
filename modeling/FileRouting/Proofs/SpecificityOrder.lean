import FileRouting.Proofs.Lists
import FileRouting.Specificity

/-! # The order of specificities

`Specificity.difference` compares like a total order does: it is antisymmetric, vanishes on equal
lists only, and its sign is transitive, whatever the lengths of the lists.  `DiffersBy` says what it
answers by where two lists part, and the order of its signs is the lexicographic one, which is the
order that `Specificity.sort` sorts by. -/

namespace FileRouting.Specificity

/-! ## Signs -/

@[simp] theorem difference_self (a : Specificity) : difference a a = 0 := by
  induction a with
  | nil => rfl
  | cons rank a ih => simpa [difference] using ih

theorem difference_append (front a b : Specificity) :
    difference (front ++ a) (front ++ b) = difference a b := by
  induction front with
  | nil => rfl
  | cons rank front ih => simpa [difference] using ih

theorem difference_swap (a b : Specificity) : difference b a = -difference a b := by
  induction a generalizing b with
  | nil => cases b <;> rfl
  | cons rank a ih =>
      cases b with
      | nil => rfl
      | cons other b =>
          simp only [difference, eq_comm (a := other)]
          split
          · exact ih b
          · omega

theorem difference_eq_zero_iff {a b : Specificity} : difference a b = 0 ↔ a = b := by
  induction a generalizing b with
  | nil => cases b <;> simp [difference]
  | cons rank a ih =>
      cases b with
      | nil => simp [difference]
      | cons other b =>
          simp only [difference, List.cons.injEq]
          split
          · next heq => simp [heq, ih]
          · next hne =>
            simp only [hne, false_and, iff_false]
            omega

/-- One induction serves all forms of transitivity: nothing is lost on the way, and a step that is
strict stays strict. -/
theorem difference_trans {a b c : Specificity} (hab : difference a b ≤ 0)
    (hbc : difference b c ≤ 0) :
    difference a c ≤ 0 ∧ (difference a b < 0 ∨ difference b c < 0 → difference a c < 0) := by
  induction a generalizing b c with
  | nil =>
      cases b with
      | nil => exact ⟨hbc, fun h => h.elim (fun hlt => by simp at hlt) id⟩
      | cons rankb b =>
          cases c with
          | nil => simp [difference] at hbc
          | cons rankc c => simp [difference]
  | cons ranka a ih =>
      cases b with
      | nil => simp [difference] at hab
      | cons rankb b =>
          cases c with
          | nil => simp [difference] at hbc
          | cons rankc c =>
              simp only [difference] at hab hbc ⊢
              -- equal ranks pass the question on, unequal ones settle it
              by_cases hfirst : ranka = rankb
              · by_cases hsecond : rankb = rankc
                · subst hfirst hsecond
                  simp only [if_true] at hab hbc ⊢
                  exact ih hab hbc
                · subst hfirst
                  simp only [if_true, if_neg hsecond] at hbc ⊢
                  omega
              · rw [if_neg hfirst] at hab ⊢
                by_cases hsecond : rankb = rankc
                · subst hsecond
                  rw [if_neg hfirst]
                  omega
                · rw [if_neg hsecond] at hbc ⊢
                  rw [if_neg (by omega)]
                  omega

theorem difference_neg_of_nonpos_of_neg {a b c : Specificity} (hab : difference a b ≤ 0)
    (hbc : difference b c < 0) : difference a c < 0 :=
  (difference_trans hab (Int.le_of_lt hbc)).2 (.inr hbc)

theorem difference_pos_trans {a b c : Specificity} (hab : 0 < difference a b)
    (hbc : 0 < difference b c) : 0 < difference a c := by
  rw [difference_swap] at hab hbc ⊢
  have hca := difference_neg_of_nonpos_of_neg (a := c) (b := b) (c := a) (by omega) (by omega)
  omega

theorem eq_of_difference_nonpos {a b : Specificity} (hab : difference a b ≤ 0)
    (hba : difference b a ≤ 0) : a = b := by
  have hswap := difference_swap a b
  exact difference_eq_zero_iff.1 (by omega)

/-! ## Where two lists part -/

/-- By how much two lists differ, told from the first position that tells them apart. -/
inductive DiffersBy : Specificity → Specificity → Int → Prop
  | same (a : Specificity) : DiffersBy a a 0
  | ended (front : Specificity) (rank : Nat) (as : Specificity) :
      DiffersBy front (front ++ rank :: as) (-1)
  | continued (front : Specificity) (rank : Nat) (as : Specificity) :
      DiffersBy (front ++ rank :: as) front 1
  | ranks (front : Specificity) {rank other : Nat} (h : rank ≠ other) (as bs : Specificity) :
      DiffersBy (front ++ rank :: as) (front ++ other :: bs) ((rank : Int) - other)

theorem DiffersBy.cons {a b : Specificity} {d : Int} (rank : Nat) (h : DiffersBy a b d) :
    DiffersBy (rank :: a) (rank :: b) d := by
  cases h with
  | same => exact .same (rank :: a)
  | ended front next as => exact .ended (rank :: a) next as
  | continued front next as => exact .continued (rank :: b) next as
  | ranks front hne as bs => exact .ranks (rank :: front) hne as bs

theorem differsBy_difference (a b : Specificity) : DiffersBy a b (difference a b) := by
  induction a generalizing b with
  | nil =>
      cases b with
      | nil => exact .same []
      | cons other b => exact .ended [] other b
  | cons rank a ih =>
      cases b with
      | nil => exact .continued [] rank a
      | cons other b =>
          rw [difference]
          split
          · next heq =>
            subst heq
            exact (ih b).cons rank
          · next hne => exact .ranks [] hne a b

theorem DiffersBy.difference_eq {a b : Specificity} {d : Int} (h : DiffersBy a b d) :
    difference a b = d := by
  cases h with
  | same => exact difference_self a
  | ended _ rank as => simpa [difference] using difference_append a [] (rank :: as)
  | continued _ rank as => simpa [difference] using difference_append b (rank :: as) []
  | ranks front hne as bs => rw [difference_append, difference, if_neg hne]

theorem difference_eq_iff {a b : Specificity} {d : Int} : difference a b = d ↔ DiffersBy a b d :=
  ⟨fun h => h ▸ differsBy_difference a b, DiffersBy.difference_eq⟩

/-- The less specific list is the one that comes first in the lexicographic order, in which a list
comes before its continuations. -/
theorem difference_neg_iff {a b : Specificity} :
    difference a b < 0 ↔ List.Lex (· < ·) a b := by
  induction a generalizing b with
  | nil => cases b <;> simp [difference]
  | cons rank a ih =>
      cases b with
      | nil => simp [difference]
      | cons other b =>
          rw [difference, List.cons_lex_cons_iff]
          split
          · next heq => simp [heq, ih]
          · next hne =>
            simp only [hne, false_and, or_false]
            omega

theorem difference_pos_iff {a b : Specificity} : 0 < difference a b ↔ List.Lex (· < ·) b a := by
  rw [← difference_neg_iff, difference_swap a b]
  omega

/-! ## Ordering and sorting -/

theorem isLE_order {a b : Specificity} : (order a b).isLE ↔ difference a b ≤ 0 := by
  rw [order, Std.isLE_compare]

theorem order_eq_eq_iff {a b : Specificity} : order a b = .eq ↔ a = b := by
  rw [order, Std.compare_eq_iff_eq, difference_eq_zero_iff]

instance : Std.TransCmp order where
  eq_swap {a b} := by
    have hswap := difference_swap a b
    cases h : order b a with
    | lt =>
        rw [order, Std.compare_eq_lt] at h
        exact Std.compare_eq_gt.2 (by omega)
    | eq =>
        rw [order_eq_eq_iff] at h
        exact order_eq_eq_iff.2 h.symm
    | gt =>
        rw [order, Std.compare_eq_gt] at h
        exact Std.compare_eq_lt.2 (by omega)
  isLE_trans {a b c} hab hbc := by
    rw [isLE_order] at hab hbc ⊢
    exact (difference_trans hab hbc).1

theorem sort_perm (lists : List Specificity) : (sort lists).Perm lists :=
  List.mergeSort_perm lists _

theorem pairwise_sort (lists : List Specificity) :
    (sort lists).Pairwise fun a b => difference a b ≤ 0 :=
  (pairwise_mergeSort_isLE lists).imp isLE_order.1

theorem difference_nonneg_trans {a b c : Specificity} (hab : 0 ≤ difference a b)
    (hbc : 0 ≤ difference b c) : 0 ≤ difference a c ∧
      (0 < difference a b ∨ 0 < difference b c → 0 < difference a c) := by
  -- `difference_trans` from `c` by `b` to `a`
  rw [difference_swap b a] at hab ⊢
  rw [difference_swap c b] at hbc ⊢
  rw [difference_swap c a]
  obtain ⟨hle, hlt⟩ := difference_trans (a := c) (b := b) (c := a) (by omega) (by omega)
  refine ⟨by omega, fun hstrict => ?_⟩
  have hca := hlt (by omega)
  omega

/-- Specificities are totally ordered by the sign of their difference, as lists are ordered by their
first members that differ, and a list comes before its continuations.  Sorting puts them into this
order. -/
theorem difference_total_order (a b c : Specificity) :
    difference a b = -difference b a ∧
    (difference a b = 0 ↔ a = b) ∧
    (0 ≤ difference a b → 0 ≤ difference b c → 0 ≤ difference a c ∧
      (0 < difference a b ∨ 0 < difference b c → 0 < difference a c)) ∧
    (difference a b < 0 ↔ List.Lex (· < ·) a b) ∧
    (0 < difference a b ↔ List.Lex (· < ·) b a) ∧
    (∀ d, difference a b = d ↔ DiffersBy a b d) ∧
    (order a b = .eq ↔ a = b) ∧ order a b = (order b a).swap ∧
    ∀ lists : List Specificity,
      (sort lists).Perm lists ∧ (sort lists).Pairwise fun a b => difference a b ≤ 0 :=
  ⟨difference_swap b a, difference_eq_zero_iff, difference_nonneg_trans, difference_neg_iff,
    difference_pos_iff, fun _ => difference_eq_iff, order_eq_eq_iff, Std.OrientedCmp.eq_swap,
    fun lists => ⟨sort_perm lists, pairwise_sort lists⟩⟩

/-- Three lists of which no two have the same length. -/
theorem difference_total_order_lengths :
    difference [4, 1] [4, 0, 4] = 1 ∧ difference [4, 0, 4] [4] = 1 ∧ 0 < difference [4, 1] [4] ∧
    DiffersBy [4, 1] [4] 1 ∧ List.Lex (· < ·) [4] [4, 1] := by
  have hfirst : difference [4, 1] [4, 0, 4] = 1 := by decide
  have hsecond : difference [4, 0, 4] [4] = 1 := by decide
  obtain ⟨_, _, htrans, _⟩ := difference_total_order [4, 1] [4, 0, 4] [4]
  obtain ⟨_, _, _, _, hlex, hdiffers, _⟩ := difference_total_order [4, 1] [4] []
  have hpos : 0 < difference [4, 1] [4] := (htrans (by omega) (by omega)).2 (.inl (by omega))
  exact ⟨hfirst, hsecond, hpos, (hdiffers 1).1 (by decide), hlex.1 hpos⟩

end FileRouting.Specificity
