import FileRouting.Proofs.Decomposition
import FileRouting.Specificity

/-! # Paths that two routes share

A rest takes several components at once.  `Covers` takes them one by one instead: it lays a list of
segments over the components of a path, and a rest may stay in place while a component goes by.  Two
routes then share a path exactly when they can be laid over the same components, and `sharePath`
decides this by walking along both lists at once.

With at most one rest the walk has no choice, and sharing a path is being in conflict.  With two
rests or more there is always room between the first and the last one, so that only the segments
before the first and behind the last have to agree. -/

namespace FileRouting

open Segment (Takes)

/-! ## Components -/

/-- The segments can be laid over the components, each over one, and a rest over one or more. -/
inductive Covers : List Segment → List Text → Prop where
  | nil : Covers [] []
  | one {s : Segment} {ss : List Segment} {c : Text} {cs : List Text}
      (hs : s.Takes c) (h : Covers ss cs) : Covers (s :: ss) (c :: cs)
  | more {s : Segment} {ss : List Segment} {c : Text} {cs : List Text}
      (hrest : s.kind = .rest) (hs : s.Takes c) (h : Covers (s :: ss) cs) :
      Covers (s :: ss) (c :: cs)

namespace Covers

variable {as bs : List Segment} {cs ds : List Text}

theorem append (h : Covers as cs) (h' : Covers bs ds) : Covers (as ++ bs) (cs ++ ds) := by
  induction h with
  | nil => exact h'
  | one hs _ ih => exact .one hs ih
  | more hrest hs _ ih => exact .more hrest hs ih

/-- A rest in front takes further components in front. -/
theorem extend {s : Segment} (hrest : s.kind = .rest) (h : Covers (s :: as) cs)
    (hds : ∀ d ∈ ds, s.Takes d) : Covers (s :: as) (ds ++ cs) := by
  induction ds with
  | nil => exact h
  | cons d ds ih =>
      rw [List.forall_mem_cons] at hds
      exact .more hrest hds.1 (ih hds.2)

/-- A rest at the end takes a further component at the end. -/
theorem concat {s : Segment} (hrest : s.kind = .rest) {c : Text} (hc : s.Takes c)
    (h : Covers (as ++ [s]) cs) : Covers (as ++ [s]) (cs ++ [c]) := by
  generalize hall : as ++ [s] = all at h ⊢
  induction h generalizing as with
  | nil => simp at hall
  | @one _ ss first cs hfirst h ih =>
      cases as with
      | nil =>
          simp only [List.nil_append, List.cons.injEq] at hall
          obtain ⟨rfl, rfl⟩ := hall
          cases h
          exact .more hrest hfirst (.one hc .nil)
      | cons a as =>
          simp only [List.cons_append, List.cons.injEq] at hall
          exact .one hfirst (ih hall.2)
  -- the rest in front is kept, so that the equation for the whole list stays the same
  | more hkind hfirst _ ih => exact .more hkind hfirst (ih hall)

theorem reverse (h : Covers as cs) : Covers as.reverse cs.reverse := by
  induction h with
  | nil => exact .nil
  | one hs _ ih =>
      rw [List.reverse_cons, List.reverse_cons]
      exact ih.append (.one hs .nil)
  | more hrest hs _ ih =>
      rw [List.reverse_cons] at ih ⊢
      rw [List.reverse_cons]
      exact ih.concat hrest hs

/-- A rest at the end takes further components at the end. -/
theorem extend_end {s : Segment} (hrest : s.kind = .rest) (h : Covers (as ++ [s]) cs)
    (hds : ∀ d ∈ ds, s.Takes d) : Covers (as ++ [s]) (cs ++ ds) := by
  have hreverse : Covers (s :: as.reverse) cs.reverse := by simpa using h.reverse
  have hmore : Covers (s :: as.reverse) (ds.reverse ++ cs.reverse) :=
    hreverse.extend hrest fun d hd => hds d (List.mem_reverse.1 hd)
  simpa using hmore.reverse

theorem length_le (h : Covers as cs) : as.length ≤ cs.length := by
  induction h with
  | nil => exact Nat.le_refl 0
  | one _ _ ih => simpa using ih
  | more _ _ _ ih => exact Nat.le_succ_of_le ih

theorem length_eq (h : Covers as cs) (hrest : ∀ s ∈ as, s.kind ≠ .rest) :
    as.length = cs.length := by
  induction h with
  | nil => rfl
  | one _ _ ih =>
      rw [List.forall_mem_cons] at hrest
      simpa using ih hrest.2
  | more hkind _ _ _ => exact absurd hkind (hrest _ (List.mem_cons_self ..))

/-- A rest takes any number of components but none. -/
theorem rest {s : Segment} (hrest : s.kind = .rest) (hne : ds ≠ []) (hds : ∀ d ∈ ds, s.Takes d)
    (h : Covers as cs) : Covers (s :: as) (ds ++ cs) := by
  induction ds with
  | nil => exact absurd rfl hne
  | cons d ds ih =>
      rw [List.forall_mem_cons] at hds
      cases ds with
      | nil => exact .one hds.1 h
      | cons next ds => exact .more hrest hds.1 (ih (List.cons_ne_nil next ds) hds.2)

end Covers

theorem Segment.takes_of_mem_pieces {s : Segment} (hrest : s.kind = .rest) {part piece : Text}
    (h : s.Takes part) (hpiece : piece ∈ Text.pieces part) : s.Takes piece := by
  cases s with
  | rest name => exact fun hmem => h (Text.subset_of_mem_pieces hpiece hmem)
  | literal _ | choice _ _ | number _ | wildcard _ => cases hrest

theorem Segment.takes_append {s : Segment} (hrest : s.kind = .rest) {front back : Text}
    (hfront : s.Takes front) (hback : s.Takes back) : s.Takes (front ++ '/' :: back) := by
  cases s with
  | rest name =>
      simp only [Segment.Takes, List.mem_append, List.mem_cons, not_or] at hfront hback ⊢
      exact ⟨hfront, by decide, hback⟩
  | literal _ | choice _ _ | number _ | wildcard _ => cases hrest

/-- The pieces of the parts are components that the segments can be laid over. -/
theorem Decomposes.covers {segments : List Segment} (hwf : ∀ s ∈ segments, s.WellFormed)
    {path : Text} {parts : List Text} (h : Decomposes segments path parts) :
    Covers segments (parts.flatMap Text.pieces) := by
  have htakes := h.takes
  clear h
  induction htakes with
  | nil => exact .nil
  | @cons s part segments parts hpart _ ih =>
      rw [List.forall_mem_cons] at hwf
      rw [List.flatMap_cons]
      by_cases hrest : s.kind = .rest
      · exact .rest hrest (Text.pieces_ne_nil part)
          (fun piece => Segment.takes_of_mem_pieces hrest hpart) (ih hwf.2)
      · rw [Text.pieces_of_notMem (Segment.slash_notMem_of_takes hwf.1 hrest hpart)]
        exact .one hpart (ih hwf.2)

/-- The components that a rest covers are put together again. -/
theorem Covers.decomposes {segments : List Segment} {cs : List Text} (h : Covers segments cs) :
    ∃ parts, Decomposes segments (Text.slashed cs) parts := by
  induction h with
  | nil => exact ⟨[], .nil⟩
  | @one s ss c cs hs _ ih =>
      obtain ⟨parts, hparts⟩ := ih
      exact ⟨c :: parts, .cons hs hparts⟩
  | @more s ss c cs hrest hs _ ih =>
      obtain ⟨parts, hpath, htakes⟩ := ih
      cases htakes with
      | @cons _ part _ parts hpart hparts =>
          refine ⟨(c ++ '/' :: part) :: parts, ?_, .cons (Segment.takes_append hrest hs hpart) hparts⟩
          rw [Text.slashed_cons, hpath, Text.slashed_cons, Text.slashed_cons]
          simp

theorem slash_notMem_of_mem_flatMap {parts : List Text} :
    ∀ c ∈ parts.flatMap Text.pieces, '/' ∉ c := by
  intro c hc
  obtain ⟨part, _, hpiece⟩ := List.mem_flatMap.1 hc
  exact Text.notMem_of_mem_pieces hpiece

theorem Text.slashed_flatMap_pieces (parts : List Text) :
    Text.slashed (parts.flatMap Text.pieces) = Text.slashed parts := by
  induction parts with
  | nil => rfl
  | cons part parts ih =>
      rw [List.flatMap_cons, Text.slashed_append, Text.slashed_pieces, ih, Text.slashed_cons]

namespace Route

theorem accepts_slashed_iff {r : Route} {cs : List Text} (hcs : ∀ c ∈ cs, '/' ∉ c) :
    r.accepts (Text.slashed cs) ↔ Covers r.segments cs := by
  rw [accepts_iff]
  constructor
  · rintro ⟨parts, hparts⟩
    have hcomponents : cs = parts.flatMap Text.pieces := by
      apply Text.slashed_injective hcs slash_notMem_of_mem_flatMap
      rw [Text.slashed_flatMap_pieces, hparts.path_eq]
    rw [hcomponents]
    exact hparts.covers r.wellFormed
  · exact Covers.decomposes

/-- A path that some route matches is made of components. -/
theorem exists_components_of_accepts {r : Route} {path : Text} (h : r.accepts path) :
    ∃ cs, (∀ c ∈ cs, '/' ∉ c) ∧ path = Text.slashed cs := by
  obtain ⟨parts, hparts⟩ := accepts_iff.1 h
  refine ⟨parts.flatMap Text.pieces, slash_notMem_of_mem_flatMap, ?_⟩
  rw [Text.slashed_flatMap_pieces, hparts.path_eq]

theorem exists_common_path_iff {a b : Route} :
    (∃ path, a.accepts path ∧ b.accepts path) ↔
      ∃ cs, (∀ c ∈ cs, '/' ∉ c) ∧ Covers a.segments cs ∧ Covers b.segments cs := by
  constructor
  · rintro ⟨path, ha, hb⟩
    obtain ⟨cs, hcs, rfl⟩ := exists_components_of_accepts ha
    exact ⟨cs, hcs, (accepts_slashed_iff hcs).1 ha, (accepts_slashed_iff hcs).1 hb⟩
  · rintro ⟨cs, hcs, ha, hb⟩
    exact ⟨Text.slashed cs, (accepts_slashed_iff hcs).2 ha, (accepts_slashed_iff hcs).2 hb⟩

end Route

/-! ## Deciding whether two routes share a path -/

instance (t : Text) : Decidable (Decimal t) :=
  decidable_of_iff ((t, []) ∈ Segment.decimal.runs t) (by
    rw [Expr.mem_runs_iff, Segment.describes_decimal_iff, List.append_nil]
    exact and_iff_right rfl)

namespace Segment

instance (s : Segment) (part : Text) : Decidable (s.Takes part) :=
  match s with
  | literal text => inferInstanceAs (Decidable (part = text))
  | choice _ values => inferInstanceAs (Decidable (part ∈ values))
  | number _ => inferInstanceAs (Decidable (Decimal part))
  | wildcard _ => inferInstanceAs (Decidable ('/' ∉ part))
  | rest _ => inferInstanceAs (Decidable ('\n' ∉ part))

/-- The components worth trying: what a segment takes of a kind, it takes of the digit as well. -/
def samples : Segment → List Text
  | literal text => [text]
  | choice _ values => values
  | number _ | wildcard _ | rest _ => [['0']]

/-- Whether some component is taken by both segments. -/
def shareComponent (s t : Segment) : Bool :=
  (s.samples ++ t.samples).any fun c => s.Takes c && t.Takes c

/-- Whether a list of segments can be laid over the same components as a segment and what follows
it, by what is known of the latter. -/
def shareBehind (s : Segment) (later : List Segment → Bool) : List Segment → Bool
  | [] => false
  | t :: ts =>
    s.shareComponent t &&
      (later ts || (s.kind = .rest && shareBehind s later ts) || (t.kind = .rest && later (t :: ts)))

/-- Whether two lists of segments can be laid over the same components. -/
def sharePath : List Segment → List Segment → Bool
  | [], bs => bs.isEmpty
  | s :: ss, bs => shareBehind s (sharePath ss) bs

theorem sharePath_cons_cons (s t : Segment) (ss ts : List Segment) :
    sharePath (s :: ss) (t :: ts) = (s.shareComponent t &&
      (sharePath ss ts || (s.kind = .rest && sharePath (s :: ss) ts) ||
        (t.kind = .rest && sharePath ss (t :: ts)))) := rfl

theorem slash_notMem_of_mem_samples {s : Segment} (hwf : s.WellFormed) {c : Text}
    (h : c ∈ s.samples) : '/' ∉ c := by
  cases s with
  | literal text =>
      rw [List.mem_singleton.1 h]
      exact hwf
  | choice name values => exact slash_notMem_of_isValue (hwf.2 c h)
  | number _ | wildcard _ | rest _ =>
      rw [List.mem_singleton.1 h]
      decide

theorem takes_of_mem_samples {s : Segment} {c : Text} (h : c ∈ s.samples) : s.Takes c := by
  cases s with
  | literal text => exact List.mem_singleton.1 h
  | choice name values => exact h
  | number name =>
      rw [List.mem_singleton.1 h]
      exact .whole ⟨List.cons_ne_nil _ _, List.forall_mem_singleton.2 rfl⟩
  | wildcard _ | rest _ =>
      rw [List.mem_singleton.1 h]
      simp [Takes]

theorem mem_samples_of_takes {s : Segment} {c : Text} (h : s.Takes c) :
    c ∈ s.samples ∨ ['0'] ∈ s.samples := by
  cases s with
  | literal text => exact .inl (List.mem_singleton.2 h)
  | choice name values => exact .inl h
  | number _ | wildcard _ | rest _ => exact .inr (List.mem_singleton.2 rfl)

theorem shareComponent_iff {s t : Segment} (hs : s.WellFormed) (ht : t.WellFormed) :
    s.shareComponent t ↔ ∃ c, '/' ∉ c ∧ s.Takes c ∧ t.Takes c := by
  simp only [shareComponent, List.any_eq_true, List.mem_append, Bool.and_eq_true,
    decide_eq_true_eq]
  constructor
  · rintro ⟨c, hc | hc, htakes⟩
    · exact ⟨c, slash_notMem_of_mem_samples hs hc, htakes⟩
    · exact ⟨c, slash_notMem_of_mem_samples ht hc, htakes⟩
  · rintro ⟨c, _, hsc, htc⟩
    rcases mem_samples_of_takes hsc with hc | hs
    · exact ⟨c, .inl hc, hsc, htc⟩
    rcases mem_samples_of_takes htc with hc | ht
    · exact ⟨c, .inr hc, hsc, htc⟩
    · exact ⟨['0'], .inl hs, takes_of_mem_samples hs, takes_of_mem_samples ht⟩

theorem exists_covers_of_sharePath {as bs : List Segment} (has : ∀ s ∈ as, s.WellFormed)
    (hbs : ∀ s ∈ bs, s.WellFormed) (h : sharePath as bs) :
    ∃ cs, (∀ c ∈ cs, '/' ∉ c) ∧ Covers as cs ∧ Covers bs cs := by
  induction as generalizing bs with
  | nil =>
      have hnil : bs = [] := by simpa [sharePath] using h
      rw [hnil]
      exact ⟨[], by simp, .nil, .nil⟩
  | cons s ss ih =>
      have hboth := List.forall_mem_cons.1 has
      -- while the first list stays at a rest, the second one gets shorter
      induction bs with
      | nil => cases h
      | cons t ts ihLater =>
          rw [List.forall_mem_cons] at hbs
          simp only [sharePath_cons_cons, Bool.and_eq_true, Bool.or_eq_true,
            decide_eq_true_eq] at h
          obtain ⟨hcomponent, hlater⟩ := h
          obtain ⟨c, hc, hsc, htc⟩ := (shareComponent_iff hboth.1 hbs.1).1 hcomponent
          rcases hlater with (hlater | ⟨hrest, hlater⟩) | ⟨hrest, hlater⟩
          · obtain ⟨cs, hcs, ha, hb⟩ := ih hboth.2 hbs.2 hlater
            exact ⟨c :: cs, List.forall_mem_cons.2 ⟨hc, hcs⟩, .one hsc ha, .one htc hb⟩
          · obtain ⟨cs, hcs, ha, hb⟩ := ihLater hbs.2 hlater
            exact ⟨c :: cs, List.forall_mem_cons.2 ⟨hc, hcs⟩, .more hrest hsc ha, .one htc hb⟩
          · obtain ⟨cs, hcs, ha, hb⟩ := ih hboth.2 (List.forall_mem_cons.2 hbs) hlater
            exact ⟨c :: cs, List.forall_mem_cons.2 ⟨hc, hcs⟩, .one hsc ha, .more hrest htc hb⟩

theorem sharePath_of_covers {as bs : List Segment} (has : ∀ s ∈ as, s.WellFormed)
    (hbs : ∀ s ∈ bs, s.WellFormed) {cs : List Text} (hcs : ∀ c ∈ cs, '/' ∉ c)
    (ha : Covers as cs) (hb : Covers bs cs) : sharePath as bs := by
  induction cs generalizing as bs with
  | nil =>
      cases ha
      cases hb
      rfl
  | cons c cs ih =>
      rw [List.forall_mem_cons] at hcs
      have hshare : ∀ {s t : Segment}, s ∈ as → t ∈ bs → s.Takes c → t.Takes c →
          s.shareComponent t = true := fun hs ht hsc htc =>
        (shareComponent_iff (has _ hs) (hbs _ ht)).2 ⟨c, hcs.1, hsc, htc⟩
      cases ha with
      | one hsc hss =>
          have hwf := (List.forall_mem_cons.1 has).2
          cases hb with
          | one htc hts =>
              rw [sharePath_cons_cons, hshare (by simp) (by simp) hsc htc,
                ih hwf (List.forall_mem_cons.1 hbs).2 hcs.2 hss hts]
              rfl
          | more hrest htc hts =>
              rw [sharePath_cons_cons, hshare (by simp) (by simp) hsc htc,
                ih hwf hbs hcs.2 hss hts]
              simp [hrest]
      | more hrest hsc hss =>
          cases hb with
          | one htc hts =>
              rw [sharePath_cons_cons, hshare (by simp) (by simp) hsc htc,
                ih has (List.forall_mem_cons.1 hbs).2 hcs.2 hss hts]
              simp [hrest]
          -- two rests that both go on are not compared at this component
          | more _ _ hts => exact ih has hbs hcs.2 hss hts

end Segment

theorem Route.exists_common_path_iff_sharePath {a b : Route} :
    (∃ path, a.accepts path ∧ b.accepts path) ↔ Segment.sharePath a.segments b.segments := by
  rw [exists_common_path_iff]
  constructor
  · rintro ⟨cs, hcs, ha, hb⟩
    exact Segment.sharePath_of_covers a.wellFormed b.wellFormed hcs ha hb
  · exact Segment.exists_covers_of_sharePath a.wellFormed b.wellFormed

end FileRouting
