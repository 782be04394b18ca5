import Mathlib.Data.List.Forall2

/-! # Lists

What several parts of the library need of lists: maps that can fail, two lists that are related
member by member, lookup under distinct keys, and sorting by a comparison. -/

namespace FileRouting

/-! ## Maps that can fail -/

theorem map_eq_ok_iff {α β ε : Type} {f : α → β} {result : Except ε α} {b : β} :
    result.map f = .ok b ↔ ∃ a, result = .ok a ∧ f a = b := by
  cases result <;> simp [Except.map]

theorem map_eq_error_iff {α β ε : Type} {f : α → β} {result : Except ε α} {e : ε} :
    result.map f = .error e ↔ result = .error e := by
  cases result <;> simp [Except.map]

theorem mapM_eq_ok_iff {α β ε : Type} {f : α → Except ε β} {as : List α} {bs : List β} :
    as.mapM f = .ok bs ↔ List.Forall₂ (fun a b => f a = .ok b) as bs := by
  induction as generalizing bs with
  | nil => cases bs <;> simp [pure, Except.pure]
  | cons a as ih =>
      rw [List.mapM_cons]
      cases hfirst : f a with
      | error e => cases bs <;> simp [bind, Except.bind, hfirst]
      | ok b =>
          cases hothers : as.mapM f with
          | error e => cases bs <;> simp [bind, Except.bind, ← ih, hothers]
          | ok others =>
              cases bs <;> simp [bind, Except.bind, pure, Except.pure, ← ih, hothers, hfirst]

theorem exists_mapM_eq_ok_iff {α β ε : Type} {f : α → Except ε β} {as : List α} :
    (∃ bs, as.mapM f = .ok bs) ↔ ∀ a ∈ as, ∃ b, f a = .ok b := by
  simp only [mapM_eq_ok_iff]
  induction as with
  | nil => exact ⟨fun _ _ h => absurd h List.not_mem_nil, fun _ => ⟨[], .nil⟩⟩
  | cons a as ih =>
      rw [List.forall_mem_cons, ← ih]
      constructor
      · rintro ⟨bs, h⟩
        cases h with
        | cons hfirst hothers => exact ⟨⟨_, hfirst⟩, _, hothers⟩
      · rintro ⟨⟨b, hfirst⟩, bs, hothers⟩
        exact ⟨b :: bs, .cons hfirst hothers⟩

theorem mapM_cons_eq_error_iff {α β ε : Type} {f : α → Except ε β} {a : α} {as : List α} {e : ε} :
    (a :: as).mapM f = .error e ↔
      f a = .error e ∨ (∃ y, f a = .ok y) ∧ as.mapM f = .error e := by
  rw [List.mapM_cons]
  cases f a with
  | error e' => simp [bind, Except.bind]
  | ok y => cases as.mapM f <;> simp [bind, Except.bind, pure, Except.pure]

theorem exists_of_mem_flatMapM {α β ε : Type} {f : α → Except ε (List β)} {as : List α}
    {bs : List β} (h : as.flatMapM f = .ok bs) {b : β} (hb : b ∈ bs) :
    ∃ a ∈ as, ∃ part, f a = .ok part ∧ b ∈ part := by
  induction as generalizing bs with
  | nil =>
      cases h
      cases hb
  | cons a as ih =>
      rw [List.flatMapM_cons] at h
      cases hfirst : f a with
      | error e =>
          rw [hfirst] at h
          cases h
      | ok first =>
          rw [hfirst] at h
          cases hothers : as.flatMapM f with
          | error e =>
              rw [hothers] at h
              cases h
          | ok others =>
              rw [hothers] at h
              cases h
              rcases List.mem_append.1 hb with hb | hb
              · exact ⟨a, List.mem_cons_self .., first, hfirst, hb⟩
              · obtain ⟨a', ha', part, hpart, hmem⟩ := ih hothers hb
                exact ⟨a', List.mem_cons_of_mem _ ha', part, hpart, hmem⟩

/-- A map fails with the failure of the first element that it fails on. -/
theorem mapM_eq_error_iff {α β ε : Type} {f : α → Except ε β} {as : List α} {e : ε} :
    as.mapM f = .error e ↔ ∃ before a after, as = before ++ a :: after ∧
      (∀ b ∈ before, ∃ y, f b = .ok y) ∧ f a = .error e := by
  induction as with
  | nil => simp [pure, Except.pure]
  | cons a as ih =>
      rw [mapM_cons_eq_error_iff, ih]
      constructor
      · rintro (hfirst | ⟨hfirst, before, b, after, rfl, hbefore, hb⟩)
        · exact ⟨[], a, as, rfl, by simp, hfirst⟩
        · exact ⟨a :: before, b, after, rfl, List.forall_mem_cons.2 ⟨hfirst, hbefore⟩, hb⟩
      · rintro ⟨before, b, after, heq, hbefore, hb⟩
        cases before with
        | nil =>
            obtain ⟨rfl, rfl⟩ := List.cons.inj heq
            exact .inl hb
        | cons c before =>
            obtain ⟨rfl, rfl⟩ := List.cons.inj heq
            obtain ⟨hfirst, hlater⟩ := List.forall_mem_cons.1 hbefore
            exact .inr ⟨hfirst, before, b, after, rfl, hlater, hb⟩

/-! ## Related lists -/

/-- What stands in the second of two related lists comes from the first. -/
theorem exists_of_mem_right {α β : Type} {R : α → β → Prop} {as : List α} {bs : List β}
    (h : List.Forall₂ R as bs) {b : β} (hb : b ∈ bs) : ∃ a ∈ as, R a b := by
  obtain ⟨i, hi, rfl⟩ := List.mem_iff_getElem.1 hb
  have hlt : i < as.length := by rwa [h.length_eq]
  exact ⟨as[i], List.getElem_mem hlt, h.get hlt hi⟩

/-- Two related lists are alike in what holds between their members, if related members are. -/
theorem pairwise_iff_of_forall₂ {α β : Type} {R : α → β → Prop} {P : α → α → Prop}
    {Q : β → β → Prop} {as : List α} {bs : List β} (h : List.Forall₂ R as bs)
    (hiff : ∀ a a' b b', R a b → R a' b' → (P a a' ↔ Q b b')) :
    as.Pairwise P ↔ bs.Pairwise Q := by
  induction h with
  | nil => simp
  | @cons a b as bs hfirst hothers ih =>
      have hahead : (∀ a' ∈ as, P a a') ↔ ∀ b' ∈ bs, Q b b' := by
        clear ih
        induction hothers with
        | nil => simp
        | cons hnext _ ih =>
            rw [List.forall_mem_cons, List.forall_mem_cons, ih, hiff _ _ _ _ hfirst hnext]
      rw [List.pairwise_cons, List.pairwise_cons, hahead, ih]

/-! ## Lookup and sorting -/

theorem lookup_eq_some_of_mem {κ ν : Type} [BEq κ] [LawfulBEq κ] {entries : List (κ × ν)}
    (hkeys : (entries.map Prod.fst).Nodup) {key : κ} {value : ν} (h : (key, value) ∈ entries) :
    entries.lookup key = some value := by
  induction entries with
  | nil => cases h
  | cons entry entries ih =>
      obtain ⟨first, taken⟩ := entry
      rw [List.map_cons, List.nodup_cons] at hkeys
      rcases List.mem_cons.1 h with heq | hlater
      · cases heq
        exact List.lookup_cons_self
      · have hne : key ≠ first := by
          rintro rfl
          exact hkeys.1 (List.mem_map.2 ⟨_, hlater, rfl⟩)
        rw [List.lookup_cons, beq_eq_false_iff_ne.2 hne]
        exact ih hkeys.2 hlater

section Sorting

variable {α : Type} {cmp : α → α → Ordering} [Std.TransCmp cmp]

theorem isLE_or_isLE (a b : α) : ((cmp a b).isLE || (cmp b a).isLE) = true := by
  have hswap : cmp b a = (cmp a b).swap := Std.OrientedCmp.eq_swap
  rw [hswap]
  cases cmp a b <;> rfl

theorem pairwise_mergeSort_isLE (list : List α) :
    (list.mergeSort fun a b => (cmp a b).isLE).Pairwise fun a b => (cmp a b).isLE :=
  List.pairwise_mergeSort (fun _ _ _ => Std.TransCmp.isLE_trans) isLE_or_isLE list

variable (cmp) in
theorem exists_mergeSort_cons (a : α) (list : List α) : ∃ front back,
    (a :: list).mergeSort (fun a b => (cmp a b).isLE) = front ++ a :: back ∧
    list.mergeSort (fun a b => (cmp a b).isLE) = front ++ back ∧
    ∀ b ∈ front, (!(cmp a b).isLE) = true :=
  List.mergeSort_cons (fun _ _ _ => Std.TransCmp.isLE_trans) isLE_or_isLE a list

/-- What comes in front of a list is sorted in between what is less and what is not. -/
theorem mergeSort_cons_isLE (a : α) (list : List α) :
    (a :: list).mergeSort (fun a b => (cmp a b).isLE) =
      (list.mergeSort fun a b => (cmp a b).isLE).filter (fun b => !(cmp a b).isLE) ++
        a :: (list.mergeSort fun a b => (cmp a b).isLE).filter fun b => (cmp a b).isLE := by
  obtain ⟨front, back, hwith, hwithout, hfront⟩ := exists_mergeSort_cons cmp a list
  have hsorted : (front ++ a :: back).Pairwise fun a b => (cmp a b).isLE :=
    hwith ▸ pairwise_mergeSort_isLE (a :: list)
  have hback : ∀ b ∈ back, (cmp a b).isLE = true :=
    (List.pairwise_cons.1 (List.pairwise_append.1 hsorted).2.1).1
  rw [hwith, hwithout, List.filter_append, List.filter_append, List.filter_eq_self.2 hfront,
    List.filter_eq_self.2 hback]
  have hnone : back.filter (fun b => !(cmp a b).isLE) = [] := by
    rw [List.filter_eq_nil_iff]
    intro b hb
    rw [hback b hb]
    exact Bool.false_ne_true
  have hnone' : front.filter (fun b => (cmp a b).isLE) = [] := by
    rw [List.filter_eq_nil_iff]
    intro b hb hle
    have hlate := hfront b hb
    rw [hle] at hlate
    cases hlate
  rw [hnone, hnone', List.append_nil, List.nil_append]

/-- Sorting puts one more element somewhere into the sorted list, and leaves the others alone. -/
theorem exists_mergeSort_insert (before after : List α) (a : α) : ∃ front back,
    (before ++ after).mergeSort (fun a b => (cmp a b).isLE) = front ++ back ∧
    (before ++ a :: after).mergeSort (fun a b => (cmp a b).isLE) = front ++ a :: back := by
  induction before with
  | nil =>
      obtain ⟨front, back, hwith, hwithout, _⟩ := exists_mergeSort_cons cmp a after
      exact ⟨front, back, hwithout, hwith⟩
  | cons b before ih =>
      obtain ⟨front, back, hwithout, hwith⟩ := ih
      -- `b` takes the same place among the others, before `a` or behind it
      rw [List.cons_append, List.cons_append, mergeSort_cons_isLE, mergeSort_cons_isLE, hwithout,
        hwith]
      simp only [List.filter_append, List.filter_cons]
      cases hle : (cmp b a).isLE with
      | true =>
          refine ⟨front.filter (fun c => !(cmp b c).isLE) ++ back.filter (fun c => !(cmp b c).isLE) ++
            b :: front.filter fun c => (cmp b c).isLE, back.filter fun c => (cmp b c).isLE, ?_, ?_⟩
          · simp
          · simp
      | false =>
          refine ⟨front.filter fun c => !(cmp b c).isLE, back.filter (fun c => !(cmp b c).isLE) ++
            b :: (front.filter (fun c => (cmp b c).isLE) ++ back.filter fun c => (cmp b c).isLE),
            ?_, ?_⟩
          · simp
          · simp

end Sorting

theorem isLE_of_pairwise_cons {α : Type} {cmp : α → α → Ordering} [Std.ReflCmp cmp] {a b : α}
    {as : List α} (h : (a :: as).Pairwise fun a b => (cmp a b).isLE) (hb : b ∈ a :: as) :
    (cmp a b).isLE := by
  rcases List.mem_cons.1 hb with rfl | hb
  · have hself : cmp b b = .eq := Std.ReflCmp.compare_self
    rw [hself]
    rfl
  · exact List.rel_of_pairwise_cons h hb

end FileRouting
