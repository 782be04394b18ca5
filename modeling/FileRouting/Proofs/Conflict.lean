import FileRouting.Proofs.CommonPath

/-! # Conflicts and common paths

A conflict is decided position by position.  Where segments are laid over components one by one this
is exact, so that only rests can make a difference: routes of the same kinds with at most one rest
share a path exactly when they conflict, and with more rests exactly when their ends conflict, if
none of their segments insists on a line feed. -/

namespace FileRouting

namespace Segment

theorem kind_eq_of_rank_eq {s t : Segment} (h : s.rank = t.rank) : s.kind = t.kind := by
  unfold rank at h
  generalize s.kind = k at h ⊢
  generalize t.kind = l at h ⊢
  cases k <;> cases l <;> simp [Kind.rank] at h ⊢

theorem map_kind_eq_of_specificity_eq {as bs : List Segment}
    (h : Specificity.ofSegments as = Specificity.ofSegments bs) :
    as.map kind = bs.map kind := by
  induction as generalizing bs with
  | nil => cases bs <;> simp_all [Specificity.ofSegments]
  | cons s ss ih =>
      cases bs with
      | nil => cases h
      | cons t ts =>
          simp only [Specificity.ofSegments, List.map_cons, List.cons.injEq] at h ⊢
          exact ⟨kind_eq_of_rank_eq h.1, ih h.2⟩

theorem overlaps_comm (s t : Segment) : s.overlaps t = t.overlaps s := by
  cases s <;> cases t <;> simp only [overlaps, eq_comm]
  next _ as _ bs =>
  rw [Bool.eq_iff_iff, List.any_eq_true, List.any_eq_true]
  simp only [List.contains_iff_mem]
  exact ⟨fun ⟨v, ha, hb⟩ => ⟨v, hb, ha⟩, fun ⟨v, hb, ha⟩ => ⟨v, ha, hb⟩⟩

/-- A conflict is an overlap at each position. -/
theorem conflict_iff {as bs : List Segment} :
    conflict as bs ↔ List.Forall₂ (fun s t => s.overlaps t) as bs := by
  induction as generalizing bs with
  | nil => cases bs <;> simp [conflict]
  | cons s ss ih =>
      cases bs with
      | nil => simp [conflict]
      | cons t ts => rw [conflict, Bool.and_eq_true, ih, List.forall₂_cons]

theorem conflict_comm (as bs : List Segment) : conflict as bs = conflict bs as := by
  induction as generalizing bs with
  | nil => cases bs <;> rfl
  | cons s ss ih =>
      cases bs with
      | nil => rfl
      | cons t ts => rw [conflict, conflict, overlaps_comm, ih]

theorem kind_eq_of_overlaps {s t : Segment} (h : s.overlaps t) : s.kind = t.kind := by
  cases s <;> cases t <;> first | rfl | cases h

theorem map_kind_eq_of_conflict {as bs : List Segment} (h : conflict as bs) :
    as.map kind = bs.map kind := by
  rw [← List.forall₂_eq_eq_eq, List.forall₂_map_left_iff, List.forall₂_map_right_iff]
  exact (conflict_iff.1 h).imp fun _ _ => kind_eq_of_overlaps

/-- A conflict is between routes of the same specificity. -/
theorem ofSegments_eq_of_conflict {as bs : List Segment} (h : conflict as bs) :
    Specificity.ofSegments as = Specificity.ofSegments bs := by
  have hkinds := congrArg (List.map Kind.rank) (map_kind_eq_of_conflict h)
  rwa [List.map_map, List.map_map] at hkinds

theorem overlaps_of_takes {s t : Segment} (hkind : s.kind = t.kind) {c : Text}
    (hs : s.Takes c) (ht : t.Takes c) : s.overlaps t := by
  cases s with
  | literal text =>
      cases t <;> cases hkind
      cases hs
      cases ht
      simp [overlaps]
  | choice name values =>
      cases t <;> cases hkind
      exact List.any_eq_true.2 ⟨c, hs, List.contains_iff_mem.2 ht⟩
  | number _ | wildcard _ | rest _ =>
      cases t <;> cases hkind
      rfl

theorem exists_takes_of_overlaps {s t : Segment} (hs : s.WellFormed) (h : s.overlaps t) :
    ∃ c, '/' ∉ c ∧ s.Takes c ∧ t.Takes c := by
  cases s with
  | literal text =>
      cases t with
      | literal other =>
          have heq : text = other := by simpa [overlaps] using h
          exact ⟨text, hs, rfl, heq⟩
      | _ => cases h
  | choice name values =>
      cases t with
      | choice _ others =>
          obtain ⟨c, hc, hother⟩ := List.any_eq_true.1 h
          exact ⟨c, slash_notMem_of_isValue (hs.2 c hc), hc, List.contains_iff_mem.1 hother⟩
      | _ => cases h
  | number _ | wildcard _ | rest _ =>
      cases t <;> cases h
      have hdigit : ∀ {u : Segment}, u.samples = [['0']] → u.Takes ['0'] := fun hu =>
        takes_of_mem_samples (hu ▸ List.mem_singleton.2 rfl)
      exact ⟨['0'], by decide, hdigit rfl, hdigit rfl⟩

/-! ## Position by position -/

theorem covers_of_conflict {as bs : List Segment} (has : ∀ s ∈ as, s.WellFormed)
    (h : conflict as bs) : ∃ cs, (∀ c ∈ cs, '/' ∉ c) ∧ Covers as cs ∧ Covers bs cs := by
  rw [conflict_iff] at h
  induction h with
  | nil => exact ⟨[], by simp, .nil, .nil⟩
  | cons hoverlaps _ ih =>
      rw [List.forall_mem_cons] at has
      obtain ⟨c, hc, hs, ht⟩ := exists_takes_of_overlaps has.1 hoverlaps
      obtain ⟨cs, hcs, hss, hts⟩ := ih has.2
      exact ⟨c :: cs, List.forall_mem_cons.2 ⟨hc, hcs⟩, .one hs hss, .one ht hts⟩

/-- How many rests there are. -/
def restCount (segments : List Segment) : Nat := segments.countP fun s => s.kind = .rest

theorem kind_ne_rest_of_restCount {segments : List Segment} (h : restCount segments = 0) :
    ∀ s ∈ segments, s.kind ≠ .rest := by
  simpa [restCount, List.countP_eq_zero] using h

theorem restCount_cons (s : Segment) (segments : List Segment) :
    restCount (s :: segments) = restCount segments + if s.kind = .rest then 1 else 0 := by
  simp [restCount, List.countP_cons]

theorem restCount_eq_of_map_kind_eq {as bs : List Segment} (h : as.map kind = bs.map kind) :
    restCount as = restCount bs := by
  have hcount := congrArg (List.countP fun k => decide (k = Kind.rest)) h
  simpa [restCount, List.countP_map, Function.comp_def] using hcount

/-- With one rest at most, it stands over the same components in both lists, because there is the
same number of components on either side of it. -/
theorem conflict_of_covers {as bs : List Segment} (hkinds : as.map kind = bs.map kind)
    (hone : restCount as ≤ 1) {cs : List Text} (ha : Covers as cs) (hb : Covers bs cs) :
    conflict as bs := by
  induction ha generalizing bs with
  | nil =>
      cases hb
      rfl
  | @one s ss c cs hs hss ih =>
      cases bs with
      | nil => cases hkinds
      | cons t ts =>
          simp only [List.map_cons, List.cons.injEq] at hkinds
          rw [restCount_cons] at hone
          cases hb with
          | one ht hts =>
              rw [conflict, Bool.and_eq_true]
              exact ⟨overlaps_of_takes hkinds.1 hs ht, ih hkinds.2 (by omega) hts⟩
          | more hrest ht hts =>
              -- without a rest, what follows `s` is too short for the components left
              rw [if_pos (hkinds.1.trans hrest)] at hone
              have hshort := hss.length_eq (kind_ne_rest_of_restCount (by omega))
              have hlong := hts.length_le
              have hlength := congrArg List.length hkinds.2
              simp only [List.length_map, List.length_cons] at hlength hlong
              omega
  | @more s ss c cs hrest hs hss ih =>
      cases hb with
      | @one t ts _ _ ht hts =>
          simp only [List.map_cons, List.cons.injEq] at hkinds
          rw [restCount_cons, if_pos hrest, restCount_eq_of_map_kind_eq hkinds.2] at hone
          have hshort := hts.length_eq (kind_ne_rest_of_restCount (by omega))
          have hlong := hss.length_le
          have hlength := congrArg List.length hkinds.2
          simp only [List.length_map, List.length_cons] at hlength hlong
          omega
      | more _ _ hts => exact ih hkinds hone hts

/-! ## Between the first and the last rest -/

/-- The segments before the first rest. -/
def front (segments : List Segment) : List Segment := segments.takeWhile fun s => s.kind ≠ .rest

/-- The segments behind the last rest, from the end of the list. -/
def back (segments : List Segment) : List Segment := front segments.reverse

/-- Whether a segment takes a component without a line feed, as a rest takes it too. -/
def Fits (s : Segment) : Prop := ∃ c, '/' ∉ c ∧ '\n' ∉ c ∧ s.Takes c

theorem front_append_cons {segments : List Segment} (h : ∀ s ∈ segments, s.kind ≠ .rest)
    {r : Segment} (hrest : r.kind = .rest) (later : List Segment) :
    front (segments ++ r :: later) = segments := by
  rw [front, List.takeWhile_append_of_pos (by simpa using h)]
  simp [hrest]

theorem exists_eq_front_append {segments : List Segment} (h : 0 < restCount segments) :
    ∃ r later, r.kind = .rest ∧ segments = front segments ++ r :: later ∧
      restCount segments = restCount later + 1 := by
  induction segments with
  | nil => simp [restCount] at h
  | cons s segments ih =>
      by_cases hrest : s.kind = .rest
      · refine ⟨s, segments, hrest, by simp [front, hrest], ?_⟩
        rw [restCount_cons, if_pos hrest]
      · rw [restCount_cons, if_neg hrest] at h ⊢
        obtain ⟨r, later, hr, hsegments, hcount⟩ := ih h
        refine ⟨r, later, hr, ?_, hcount⟩
        rw [front, List.takeWhile_cons_of_pos (by simpa using hrest), ← front, List.cons_append,
          ← hsegments]

theorem kind_ne_rest_of_mem_front {segments : List Segment} :
    ∀ s ∈ front segments, s.kind ≠ .rest := by
  intro s hs
  simpa using List.all_eq_true.1 List.all_takeWhile s hs

/-- A list with two rests or more: its ends, and between them what starts and stops with a rest. -/
theorem exists_eq_front_append_back {segments : List Segment} (h : 1 < restCount segments) :
    ∃ first between last, first.kind = .rest ∧ last.kind = .rest ∧
      segments = front segments ++ (first :: (between ++ [last])) ++ (back segments).reverse := by
  have hsome : 0 < restCount segments := by omega
  obtain ⟨first, later, hfirst, hsegments, hcount⟩ := exists_eq_front_append hsome
  have hlater : 0 < restCount later.reverse := by
    rw [restCount, List.countP_reverse, ← restCount]
    omega
  obtain ⟨last, between, hlast, hreverse, _⟩ := exists_eq_front_append hlater
  refine ⟨first, between.reverse, last, hfirst, hlast, ?_⟩
  -- from the end, the last rest is the first one, before the first rest is reached
  have hback : back segments = front later.reverse := by
    have hwhole : segments.reverse =
        front later.reverse ++ last :: (between ++ first :: (front segments).reverse) := by
      conv_lhs => rw [hsegments, List.reverse_append, List.reverse_cons, hreverse]
      simp
    rw [back, hwhole]
    exact front_append_cons kind_ne_rest_of_mem_front hlast _
  have hbetween : later = between.reverse ++ last :: (front later.reverse).reverse := by
    have hagain := congrArg List.reverse hreverse
    rw [List.reverse_reverse, List.reverse_append, List.reverse_cons] at hagain
    simpa using hagain
  rw [hback]
  calc segments = front segments ++ first :: later := hsegments
    _ = front segments ++ (first :: (between.reverse ++ [last])) ++
        (front later.reverse).reverse := by
      conv_lhs => rw [hbetween]
      simp

theorem conflict_front_of_covers {as bs : List Segment} (hkinds : as.map kind = bs.map kind)
    {cs : List Text} (ha : Covers as cs) (hb : Covers bs cs) :
    conflict (front as) (front bs) := by
  induction ha generalizing bs with
  | nil =>
      cases hb
      rfl
  | @one s ss c cs hs hss ih =>
      cases bs with
      | nil => cases hkinds
      | cons t ts =>
          simp only [List.map_cons, List.cons.injEq] at hkinds
          by_cases hrest : s.kind = .rest
          · simp [front, hrest, ← hkinds.1, conflict]
          · have hrest' : t.kind ≠ .rest := fun heq => hrest (hkinds.1.trans heq)
            cases hb with
            | one ht hts =>
                have hlater := ih hkinds.2 hts
                rw [front, front, List.takeWhile_cons_of_pos (by simpa using hrest),
                  List.takeWhile_cons_of_pos (by simpa using hrest'), conflict, Bool.and_eq_true]
                exact ⟨overlaps_of_takes hkinds.1 hs ht, hlater⟩
            | more hkind _ _ => exact absurd hkind hrest'
  | @more s ss c cs hrest hs hss ih =>
      cases bs with
      | nil => cases hkinds
      | cons t ts =>
          simp only [List.map_cons, List.cons.injEq] at hkinds
          simp [front, hrest, ← hkinds.1, conflict]

theorem conflict_back_of_covers {as bs : List Segment} (hkinds : as.map kind = bs.map kind)
    {cs : List Text} (ha : Covers as cs) (hb : Covers bs cs) :
    conflict (back as) (back bs) := by
  apply conflict_front_of_covers _ ha.reverse hb.reverse
  rw [List.map_reverse, List.map_reverse, hkinds]

theorem exists_covers_of_fits {segments : List Segment} (h : ∀ s ∈ segments, s.Fits) :
    ∃ cs, (∀ c ∈ cs, '/' ∉ c) ∧ (∀ c ∈ cs, '\n' ∉ c) ∧ Covers segments cs := by
  induction segments with
  | nil => exact ⟨[], by simp, by simp, .nil⟩
  | cons s segments ih =>
      rw [List.forall_mem_cons] at h
      obtain ⟨c, hslash, hnewline, hs⟩ := h.1
      obtain ⟨cs, hslashes, hnewlines, hlater⟩ := ih h.2
      exact ⟨c :: cs, List.forall_mem_cons.2 ⟨hslash, hslashes⟩,
        List.forall_mem_cons.2 ⟨hnewline, hnewlines⟩, .one hs hlater⟩

theorem mem_of_mem_front {segments : List Segment} {s : Segment} (h : s ∈ front segments) :
    s ∈ segments :=
  (List.takeWhile_sublist _).subset h

theorem mem_of_mem_back {segments : List Segment} {s : Segment} (h : s ∈ back segments) :
    s ∈ segments :=
  List.mem_reverse.1 (mem_of_mem_front h)

theorem takes_of_kind_rest {s : Segment} (hrest : s.kind = .rest) {c : Text} (hc : '\n' ∉ c) :
    s.Takes c := by
  cases s with
  | rest name => exact hc
  | literal _ | choice _ _ | number _ | wildcard _ => cases hrest

/-- Two lists that each start and stop with a rest can be laid over the same components: the last
rest of one list passes by what the other list needs, and the first rest of that list passes by what
the former needs. -/
theorem exists_covers_of_rests {first last first' last' : Segment} {between between' : List Segment}
    (hlast : last.kind = .rest) (hfirst' : first'.kind = .rest)
    (hfits : ∀ s ∈ first :: (between ++ [last]), s.Fits)
    (hfits' : ∀ s ∈ first' :: (between' ++ [last']), s.Fits) :
    ∃ cs, (∀ c ∈ cs, '/' ∉ c) ∧ Covers (first :: (between ++ [last])) cs ∧
      Covers (first' :: (between' ++ [last'])) cs := by
  obtain ⟨ms, hms, hmsLine, ha⟩ := exists_covers_of_fits hfits
  obtain ⟨ns, hns, hnsLine, hb⟩ := exists_covers_of_fits hfits'
  -- a rest takes no line feed, which is why the components it passes by must not have one
  have hlonger : Covers ((first :: between) ++ [last]) (ms ++ ns) :=
    Covers.extend_end hlast ha fun d hd => takes_of_kind_rest hlast (hnsLine d hd)
  have hlonger' : Covers (first' :: (between' ++ [last'])) (ms ++ ns) :=
    hb.extend hfirst' fun d hd => takes_of_kind_rest hfirst' (hmsLine d hd)
  exact ⟨ms ++ ns, List.forall_mem_append.2 ⟨hms, hns⟩, hlonger, hlonger'⟩

/-- With two rests or more, only the segments at the ends have to agree. -/
theorem exists_covers_of_conflict_ends {as bs : List Segment} (has : ∀ s ∈ as, s.WellFormed)
    (hkinds : as.map kind = bs.map kind) (hmany : 1 < restCount as)
    (hfits : ∀ s ∈ as, s.Fits) (hfits' : ∀ s ∈ bs, s.Fits)
    (hfront : conflict (front as) (front bs)) (hback : conflict (back as) (back bs)) :
    ∃ cs, (∀ c ∈ cs, '/' ∉ c) ∧ Covers as cs ∧ Covers bs cs := by
  have hmany' : 1 < restCount bs := by rwa [← restCount_eq_of_map_kind_eq hkinds]
  obtain ⟨first, between, last, _, hlast, hsplit⟩ := exists_eq_front_append_back hmany
  obtain ⟨first', between', last', hfirst', _, hsplit'⟩ := exists_eq_front_append_back hmany'
  obtain ⟨fs, hfs, hfa, hfb⟩ := covers_of_conflict (fun s hs => has s (mem_of_mem_front hs)) hfront
  obtain ⟨ks, hks, hka, hkb⟩ := covers_of_conflict (fun s hs => has s (mem_of_mem_back hs)) hback
  obtain ⟨ms, hms, hma, hmb⟩ : ∃ ms, (∀ c ∈ ms, '/' ∉ c) ∧
      Covers (first :: (between ++ [last])) ms ∧ Covers (first' :: (between' ++ [last'])) ms := by
    apply exists_covers_of_rests hlast hfirst'
    · intro s hs
      apply hfits s
      rw [hsplit]
      exact List.mem_append_left _ (List.mem_append_right _ hs)
    · intro s hs
      apply hfits' s
      rw [hsplit']
      exact List.mem_append_left _ (List.mem_append_right _ hs)
  refine ⟨fs ++ ms ++ ks.reverse, ?_, ?_, ?_⟩
  · intro c hc
    simp only [List.mem_append, List.mem_reverse] at hc
    rcases hc with (hc | hc) | hc
    · exact hfs c hc
    · exact hms c hc
    · exact hks c hc
  · rw [hsplit]
    exact (hfa.append hma).append hka.reverse
  · rw [hsplit']
    exact (hfb.append hmb).append hkb.reverse

theorem sharePath_iff_conflict_ends {as bs : List Segment} (has : ∀ s ∈ as, s.WellFormed)
    (hbs : ∀ s ∈ bs, s.WellFormed) (hkinds : as.map kind = bs.map kind)
    (hmany : 1 < restCount as) (hfits : ∀ s ∈ as, s.Fits) (hfits' : ∀ s ∈ bs, s.Fits) :
    sharePath as bs ↔ conflict (front as) (front bs) ∧ conflict (back as) (back bs) := by
  constructor
  · intro h
    obtain ⟨cs, _, ha, hb⟩ := exists_covers_of_sharePath has hbs h
    exact ⟨conflict_front_of_covers hkinds ha hb, conflict_back_of_covers hkinds ha hb⟩
  · rintro ⟨hfront, hback⟩
    obtain ⟨cs, hcs, ha, hb⟩ :=
      exists_covers_of_conflict_ends has hkinds hmany hfits hfits' hfront hback
    exact sharePath_of_covers has hbs hcs ha hb

theorem conflict_of_sharePath {as bs : List Segment} (has : ∀ s ∈ as, s.WellFormed)
    (hbs : ∀ s ∈ bs, s.WellFormed) (hkinds : as.map kind = bs.map kind)
    (hone : restCount as ≤ 1) (h : sharePath as bs) : conflict as bs := by
  obtain ⟨cs, _, ha, hb⟩ := exists_covers_of_sharePath has hbs h
  exact conflict_of_covers hkinds hone ha hb

end Segment

/-! ## Routes -/

namespace Route

theorem exists_common_path_of_conflict {a b : Route} (h : Segment.conflict a.segments b.segments) :
    ∃ path, a.accepts path ∧ b.accepts path :=
  exists_common_path_iff.2 (Segment.covers_of_conflict a.wellFormed h)

theorem conflict_of_common_path {a b : Route} (hspecificity : a.specificity = b.specificity)
    (hone : Segment.restCount a.segments ≤ 1) {path : Text} (ha : a.accepts path)
    (hb : b.accepts path) : Segment.conflict a.segments b.segments := by
  obtain ⟨cs, _, hcovers, hcovers'⟩ := exists_common_path_iff.1 ⟨path, ha, hb⟩
  have hkinds := Segment.map_kind_eq_of_specificity_eq hspecificity
  exact Segment.conflict_of_covers hkinds hone hcovers hcovers'

/-- The conflict test is exact for routes with one rest at most: it finds a conflict exactly when
the routes have the same specificity and a path that both match.  However many rests there are, a
conflict means that there is such a path, and it is mutual. -/
theorem conflict_iff_common_path (a b : Route) :
    (Segment.restCount a.segments ≤ 1 → Segment.restCount b.segments ≤ 1 →
      (Segment.conflict a.segments b.segments ↔
        a.specificity = b.specificity ∧ ∃ path, a.accepts path ∧ b.accepts path)) ∧
    (Segment.conflict a.segments b.segments → ∃ path, a.accepts path ∧ b.accepts path) ∧
    Segment.conflict a.segments b.segments = Segment.conflict b.segments a.segments := by
  refine ⟨?_, exists_common_path_of_conflict, Segment.conflict_comm ..⟩
  intro hone _
  constructor
  · intro h
    exact ⟨Segment.ofSegments_eq_of_conflict h, exists_common_path_of_conflict h⟩
  · rintro ⟨hspecificity, path, ha, hb⟩
    exact conflict_of_common_path hspecificity hone ha hb

/-! Three routes that differ in the values of a choice before a rest. -/

def choiceAB : Route where
  source := ⟨[]⟩
  canonical := "/[k:|a|b]/[r:**]".toList
  segments := [.choice ['k'] [['a'], ['b']], .rest ['r']]
  layout := none
  segments_eq := by decide +kernel

def choiceBC : Route where
  source := ⟨[]⟩
  canonical := "/[m:|b|c]/[s:**]".toList
  segments := [.choice ['m'] [['b'], ['c']], .rest ['s']]
  layout := none
  segments_eq := by decide +kernel

def choiceCD : Route where
  source := ⟨[]⟩
  canonical := "/[m:|c|d]/[r:**]".toList
  segments := [.choice ['m'] [['c'], ['d']], .rest ['r']]
  layout := none
  segments_eq := by decide +kernel

/-- A common value makes a common path, and without one there is none, though the specificity is the
same. -/
theorem conflict_iff_common_path_choices :
    (Segment.conflict choiceAB.segments choiceBC.segments = true ∧
      ∃ path, choiceAB.accepts path ∧ choiceBC.accepts path) ∧
    Segment.restCount choiceAB.segments ≤ 1 ∧ Segment.restCount choiceCD.segments ≤ 1 ∧
      choiceAB.specificity = choiceCD.specificity ∧
      ¬ ∃ path, choiceAB.accepts path ∧ choiceCD.accepts path := by
  have hshared : Segment.conflict choiceAB.segments choiceBC.segments = true := by decide
  have hone : Segment.restCount choiceAB.segments ≤ 1 := by decide
  have hone' : Segment.restCount choiceCD.segments ≤ 1 := by decide
  have hspecificity : choiceAB.specificity = choiceCD.specificity := by decide
  have hapart : ¬ Segment.conflict choiceAB.segments choiceCD.segments := by decide
  refine ⟨⟨hshared, (conflict_iff_common_path _ _).2.1 hshared⟩, hone, hone', hspecificity, ?_⟩
  intro hpath
  exact hapart (((conflict_iff_common_path _ _).1 hone hone').2 ⟨hspecificity, hpath⟩)

end Route

end FileRouting
