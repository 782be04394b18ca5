import FileRouting.Proofs.WellFormed
import Mathlib

/-! # Decompositions of paths

A route says how a path is to be written: a slash and a text for each segment, where every segment
takes texts of its own kind.  `Decomposes` states this without mention of patterns.  The module
proves that the pattern of a route accepts exactly the paths that have such a decomposition, and
that what it captures are the texts of the parameters in one of them.

`Expr.mem_runs_iff` separates what an expression describes from the order in which it is tried, and
`Segment.describes_expr_iff` compares what the expression of a segment describes with what the
segment takes. -/

namespace FileRouting

namespace Expr

/-- The texts that an expression describes. -/
def Describes : Expr → Text → Prop
  | text t, taken => taken = t
  | many cls, taken => ∀ c ∈ taken, cls.accepts c
  | some cls, taken => taken ≠ [] ∧ ∀ c ∈ taken, cls.accepts c
  | seq first second, taken =>
    ∃ front back, taken = front ++ back ∧ first.Describes front ∧ second.Describes back
  | alt first second, taken => first.Describes taken ∨ second.Describes taken
  | group inner, taken => inner.Describes taken

theorem mem_runs_iff {e : Expr} {input taken rest : Text} :
    (taken, rest) ∈ e.runs input ↔ input = taken ++ rest ∧ e.Describes taken := by
  induction e generalizing input taken rest with
  | text t =>
      simp only [runs, List.mem_map, Option.mem_toList, dropFront?_eq_some_iff, Prod.mk.injEq,
        Describes]
      constructor
      · rintro ⟨_, rfl, rfl, rfl⟩
        exact ⟨rfl, rfl⟩
      · rintro ⟨rfl, rfl⟩
        exact ⟨rest, rfl, rfl, rfl⟩
  | many cls => exact mem_splits_iff
  | some cls =>
      rw [runs, List.mem_filter, mem_splits_iff, Describes, decide_eq_true_iff]
      exact ⟨fun h => ⟨h.1.1, h.2, h.1.2⟩, fun h => ⟨⟨h.1, h.2.2⟩, h.2.1⟩⟩
  | seq first second ihFirst ihSecond =>
      simp only [runs, List.mem_flatMap, List.mem_map, Prod.exists, Prod.mk.injEq, Describes]
      constructor
      · rintro ⟨front, middle, hfront, back, _, hback, rfl, rfl⟩
        obtain ⟨rfl, hfirst⟩ := ihFirst.1 hfront
        obtain ⟨rfl, hsecond⟩ := ihSecond.1 hback
        exact ⟨(List.append_assoc ..).symm, front, back, rfl, hfirst, hsecond⟩
      · rintro ⟨rfl, front, back, rfl, hfirst, hsecond⟩
        exact ⟨front, back ++ rest, ihFirst.2 ⟨List.append_assoc .., hfirst⟩, back, rest,
          ihSecond.2 ⟨rfl, hsecond⟩, rfl, rfl⟩
  | alt first second ihFirst ihSecond =>
      rw [runs, List.mem_append, ihFirst, ihSecond, Describes, and_or_left]
  | group inner ih => exact ih

theorem describes_oneOf_iff {values : List Text} (h : values ≠ []) {taken : Text} :
    (oneOf values).Describes taken ↔ taken ∈ values := by
  induction values with
  | nil => exact absurd rfl h
  | cons value values ih =>
      cases values with
      | nil => simp [oneOf, Describes]
      | cons next values =>
          have hothers := ih (List.cons_ne_nil next values)
          simp only [oneOf, Describes]
          rw [hothers]
          exact List.mem_cons.symm

end Expr

/-! ## What segments take -/

/-- One ASCII digit or more. -/
def Digits (t : Text) : Prop := t ≠ [] ∧ ∀ c ∈ t, c.isDigit

/-- The written forms of decimal numbers. -/
inductive Decimal : Text → Prop where
  | whole {ds : Text} (h : Digits ds) : Decimal ds
  | trailingPoint {ds : Text} (h : Digits ds) : Decimal (ds ++ ['.'])
  | fraction {ds es : Text} (hds : Digits ds) (hes : Digits es) : Decimal (ds ++ '.' :: es)
  | leadingPoint {es : Text} (h : Digits es) : Decimal ('.' :: es)

namespace Segment

/-- The texts that a segment takes, as they stand in a path behind a slash. -/
def Takes : Segment → Text → Prop
  | literal text, part => part = text
  | choice _ values, part => part ∈ values
  | number _, part => Decimal part
  | wildcard _, part => '/' ∉ part
  | rest _, part => '\n' ∉ part

theorem describes_decimal_iff {taken : Text} : decimal.Describes taken ↔ Decimal taken := by
  constructor
  · rintro (⟨ds, _, rfl, hds, _, es, rfl, rfl, hes⟩ | ⟨ds, _, rfl, hds, rfl⟩ |
      ⟨_, es, rfl, rfl, hes⟩ | hds)
    · exact .fraction hds hes
    · exact .trailingPoint hds
    · exact .leadingPoint hes
    · exact .whole hds
  · rintro (hds | hds | ⟨hds, hes⟩ | hes)
    · exact .inr (.inr (.inr hds))
    · exact .inr (.inl ⟨_, _, rfl, hds, rfl⟩)
    · exact .inl ⟨_, _, rfl, hds, _, _, rfl, rfl, hes⟩
    · exact .inr (.inr (.inl ⟨_, _, rfl, rfl, hes⟩))

theorem describes_expr_iff {s : Segment} (h : s.WellFormed) {part : Text} :
    s.expr.Describes part ↔ s.Takes part := by
  cases s with
  | literal text => exact Iff.rfl
  | choice name values => exact Expr.describes_oneOf_iff h.1
  | number name => exact describes_decimal_iff
  | wildcard name | rest name =>
      simp only [expr, Expr.Describes, CharClass.accepts, Takes, decide_eq_true_eq]
      exact ⟨fun hall hmem => hall _ hmem rfl, fun hnot c hmem heq => hnot (heq ▸ hmem)⟩

theorem notMem_of_decimal {c : Char} (hdigit : c.isDigit = false) (hpoint : c ≠ '.') {t : Text}
    (h : Decimal t) : c ∉ t := by
  have hdigits : ∀ {ds : Text}, Digits ds → c ∉ ds := fun hds hmem => by
    rw [hds.2 c hmem] at hdigit
    cases hdigit
  cases h with
  | whole hds => exact hdigits hds
  | trailingPoint hds => simp [hdigits hds, hpoint]
  | fraction hds hes => simp [hdigits hds, hdigits hes, hpoint]
  | leadingPoint hes => simp [hdigits hes, hpoint]

/-- Only a rest takes more than one component. -/
theorem slash_notMem_of_takes {s : Segment} (hwf : s.WellFormed) (hkind : s.kind ≠ .rest)
    {part : Text} (h : s.Takes part) : '/' ∉ part := by
  cases s with
  | literal text =>
      cases h
      exact hwf
  | choice name values => exact slash_notMem_of_isValue (hwf.2 part h)
  | number name => exact notMem_of_decimal rfl (by decide) h
  | wildcard name => exact h
  | rest name => exact absurd rfl hkind

/-- The texts of the parameters, of one text for each segment. -/
def namedParts (segments : List Segment) (parts : List Text) : List Text :=
  ((segments.zip parts).filter (·.1.kind.isNamed)).map Prod.snd

theorem namedParts_cons (s : Segment) (segments : List Segment) (part : Text) (parts : List Text) :
    namedParts (s :: segments) (part :: parts) =
      (if s.kind.isNamed then [part] else []) ++ namedParts segments parts := by
  rw [namedParts, List.zip_cons_cons, List.filter_cons]
  split <;> rfl

theorem mem_of_mem_namedParts {segments : List Segment} {parts : List Text} {part : Text}
    (h : part ∈ namedParts segments parts) : part ∈ parts := by
  obtain ⟨⟨s, _⟩, hmem, rfl⟩ := List.mem_map.1 h
  exact (List.of_mem_zip (List.mem_of_mem_filter hmem)).2

end Segment

/-- A way to write a path: a slash before each of the parts, and a part for each segment, which the
segment takes. -/
structure Decomposes (segments : List Segment) (path : Text) (parts : List Text) : Prop where
  path_eq : path = Text.slashed parts
  takes : List.Forall₂ Segment.Takes segments parts

namespace Decomposes

theorem nil : Decomposes [] [] [] := ⟨rfl, .nil⟩

theorem cons {s : Segment} {segments : List Segment} {part path : Text} {parts : List Text}
    (hs : s.Takes part) (h : Decomposes segments path parts) :
    Decomposes (s :: segments) ('/' :: part ++ path) (part :: parts) := by
  refine ⟨?_, .cons hs h.takes⟩
  rw [Text.slashed_cons, ← h.path_eq]

theorem slash_notMem {segments : List Segment} {path : Text} {parts : List Text}
    (h : Decomposes segments path parts) (hwf : ∀ s ∈ segments, s.WellFormed)
    (hkind : ∀ s ∈ segments, s.kind ≠ .rest) : ∀ part ∈ parts, '/' ∉ part := by
  intro part hpart
  obtain ⟨s, hs, htake⟩ := exists_of_mem_right h.takes hpart
  exact Segment.slash_notMem_of_takes (hwf s hs) (hkind s hs) htake

/-- A part consists of whole components of the path. -/
theorem pieces_subset {segments : List Segment} {path : Text} {parts : List Text}
    (h : Decomposes segments path parts) {part : Text} (hpart : part ∈ parts) :
    Text.pieces part ⊆ Text.pieces path := by
  intro piece hpiece
  rw [h.path_eq, Text.pieces_slashed]
  exact List.mem_cons_of_mem _ (List.mem_flatMap.2 ⟨part, hpart, hpiece⟩)

theorem subset {segments : List Segment} {path : Text} {parts : List Text}
    (h : Decomposes segments path parts) {part : Text} (hpart : part ∈ parts) : part ⊆ path := by
  intro c hc
  rw [h.path_eq, Text.slashed]
  exact List.mem_flatMap.2 ⟨part, hpart, List.mem_cons_of_mem _ hc⟩

end Decomposes

/-! ## Patterns -/

namespace Pattern

/-- Behind a slash, an item of a segment takes a part of the path and keeps it if it is named. -/
theorem captureFrom_slash_item (s : Segment) (items : List Item) (path : Text) :
    captureFrom (.plain (.text ['/']) :: s.item :: items) path =
      (dropFront? ['/'] path).bind fun input => (s.expr.runs input).findSome? fun run =>
        (captureFrom items run.2).map ((if s.kind.isNamed then [run.1] else []) ++ ·) := by
  have hitem : ∀ input, captureFrom (s.item :: items) input =
      (s.expr.runs input).findSome? fun run =>
        (captureFrom items run.2).map ((if s.kind.isNamed then [run.1] else []) ++ ·) := by
    intro input
    cases s with
    | literal text => simp [Segment.item, Segment.expr, captureFrom, Segment.kind,
        Segment.Kind.isNamed]
    | choice _ _ | number _ | wildcard _ | rest _ => rfl
  rw [captureFrom]
  cases hdrop : dropFront? ['/'] path with
  | none => simp [Expr.runs, hdrop]
  | some input => simp [Expr.runs, hdrop, hitem]

/-- The items of a list of segments, each behind a slash. -/
def slashedItems (segments : List Segment) : List Item :=
  segments.flatMap fun s => [.plain (.text ['/']), s.item]

theorem slashedItems_cons (s : Segment) (segments : List Segment) :
    slashedItems (s :: segments) = .plain (.text ['/']) :: s.item :: slashedItems segments := rfl

theorem itemsOf_eq_slashedItems {segments : List Segment} (h : segments ≠ []) :
    itemsOf segments = slashedItems segments := by
  cases segments with
  | nil => exact absurd rfl h
  | cons s segments => rfl

theorem decomposes_of_captureFrom {segments : List Segment} (hwf : ∀ s ∈ segments, s.WellFormed)
    {path : Text} {captured : List Text}
    (h : captureFrom (slashedItems segments) path = some captured) :
    ∃ parts, Decomposes segments path parts ∧ captured = Segment.namedParts segments parts := by
  induction segments generalizing path captured with
  | nil =>
      cases path with
      | nil =>
          cases h
          exact ⟨[], .nil, rfl⟩
      | cons c path => cases h
  | cons s segments ih =>
      rw [List.forall_mem_cons] at hwf
      rw [slashedItems_cons, captureFrom_slash_item, Option.bind_eq_some_iff] at h
      obtain ⟨input, hinput, hrun⟩ := h
      obtain ⟨⟨part, remaining⟩, hmem, hlater⟩ := List.exists_of_findSome?_eq_some hrun
      -- the first run that leads to an end is a run like any other
      obtain ⟨later, hcaptured, rfl⟩ := Option.map_eq_some_iff.1 hlater
      obtain ⟨parts, hparts, rfl⟩ := ih hwf.2 hcaptured
      obtain ⟨rfl, hdescribes⟩ := Expr.mem_runs_iff.1 hmem
      refine ⟨part :: parts, ?_, (Segment.namedParts_cons s segments part parts).symm⟩
      rw [dropFront?_eq_some_iff.1 hinput]
      exact .cons ((Segment.describes_expr_iff hwf.1).1 hdescribes) hparts

theorem isSome_captureFrom_of_decomposes {segments : List Segment}
    (hwf : ∀ s ∈ segments, s.WellFormed) {path : Text} {parts : List Text}
    (h : Decomposes segments path parts) : (captureFrom (slashedItems segments) path).isSome := by
  induction segments generalizing path parts with
  | nil =>
      obtain ⟨rfl, htakes⟩ := h
      cases htakes
      rfl
  | cons s segments ih =>
      rw [List.forall_mem_cons] at hwf
      obtain ⟨rfl, htakes⟩ := h
      cases htakes with
      | @cons _ part _ parts hpart hparts =>
          have hmem : (part, Text.slashed parts) ∈ s.expr.runs (part ++ Text.slashed parts) :=
            Expr.mem_runs_iff.2 ⟨rfl, (Segment.describes_expr_iff hwf.1).2 hpart⟩
          have hdrop : dropFront? ['/'] (Text.slashed (part :: parts)) =
              some (part ++ Text.slashed parts) := by
            rw [dropFront?_eq_some_iff, Text.slashed_cons]
            rfl
          -- an earlier run may succeed with other parts, so that only success can be claimed
          rw [slashedItems_cons, captureFrom_slash_item, hdrop, Option.bind_some,
            List.findSome?_isSome_iff]
          refine ⟨_, hmem, ?_⟩
          rw [Option.isSome_map]
          exact ih hwf.2 ⟨rfl, hparts⟩

end Pattern

/-! ## Routes -/

namespace Route

theorem captures?_eq (r : Route) (path : Text) :
    r.captures? path = captureFrom (Pattern.slashedItems r.segments) path := by
  rw [captures?, Pattern.captures?_eq, pattern, Pattern.ofSegments,
    Pattern.itemsOf_eq_slashedItems r.segments_ne_nil]

theorem decomposes_of_captures? {r : Route} {path : Text} {captured : List Text}
    (h : r.captures? path = some captured) :
    ∃ parts, Decomposes r.segments path parts ∧
      captured = Segment.namedParts r.segments parts := by
  rw [captures?_eq] at h
  exact Pattern.decomposes_of_captureFrom r.wellFormed h

theorem accepts_iff {r : Route} {path : Text} :
    r.accepts path ↔ ∃ parts, Decomposes r.segments path parts := by
  constructor
  · intro h
    obtain ⟨captured, hcaptured⟩ := Option.isSome_iff_exists.1 h
    obtain ⟨parts, hparts, _⟩ := decomposes_of_captures? hcaptured
    exact ⟨parts, hparts⟩
  · rintro ⟨parts, hparts⟩
    rw [accepts, captures?_eq]
    exact Pattern.isSome_captureFrom_of_decomposes r.wellFormed hparts

/-- A route matches a path exactly when the path decomposes along its segments, it then captures the
texts of its parameters in a decomposition, and without a rest it matches paths with as many
components as it has segments. -/
theorem matches_decompositions (r : Route) (path : Text) :
    (r.accepts path ↔ ∃ parts, Decomposes r.segments path parts) ∧
    ((∃ captured, r.captures? path = some captured) ↔ ∃ parts, Decomposes r.segments path parts) ∧
    (∀ captured, r.captures? path = some captured →
      ∃ parts, Decomposes r.segments path parts ∧
        captured = Segment.namedParts r.segments parts) ∧
    ((∀ s ∈ r.segments, s.kind ≠ .rest) → r.accepts path →
      ∃ behind, path = '/' :: behind ∧ (Text.pieces behind).length = r.segments.length) := by
  refine ⟨accepts_iff, ?_, fun captured => decomposes_of_captures?, ?_⟩
  · rw [← accepts_iff, accepts, Option.isSome_iff_exists]
  · intro hkind haccepts
    obtain ⟨parts, hparts⟩ := accepts_iff.1 haccepts
    have hlength := hparts.takes.length_eq
    have hne : parts ≠ [] := fun heq => r.segments_ne_nil (by simpa [heq] using hlength)
    obtain ⟨behind, hbehind, hpieces⟩ :=
      Text.exists_slashed_eq_cons hne (hparts.slash_notMem r.wellFormed hkind)
    exact ⟨behind, hparts.path_eq.trans hbehind, by rw [hpieces, hlength]⟩

/-- The route `/[r:**]/[s:**]`. -/
def twoRests : Route := ⟨⟨[]⟩, "/[r:**]/[s:**]".toList, [.rest ['r'], .rest ['s']], none, by cbv⟩

/-- The route `/a/[x]`. -/
def behindA : Route := ⟨⟨[]⟩, "/a/[x]".toList, [.literal ['a'], .wildcard ['x']], none, by cbv⟩

/-- Of the ways to divide a path between two rests, the one is found in which the first rest takes
as much as it can. -/
theorem matches_decompositions_twoRests :
    (twoRests.captures? "/x/y/z".toList = some ["x/y".toList, "z".toList] ∧
      ∃ parts, Decomposes twoRests.segments "/x/y/z".toList parts ∧
        ["x/y".toList, "z".toList] = Segment.namedParts twoRests.segments parts) ∧
    behindA.accepts "/a/b".toList ∧
      ∃ behind, "/a/b".toList = '/' :: behind ∧
        (Text.pieces behind).length = behindA.segments.length := by
  have hcaptures : twoRests.captures? "/x/y/z".toList = some ["x/y".toList, "z".toList] := by cbv
  have hkinds : ∀ s ∈ behindA.segments, s.kind ≠ .rest := by decide
  have haccepts : behindA.accepts "/a/b".toList := by cbv
  exact ⟨⟨hcaptures, (matches_decompositions twoRests _).2.2.1 _ hcaptures⟩, haccepts,
    (matches_decompositions behindA _).2.2.2 hkinds haccepts⟩

end Route

end FileRouting
