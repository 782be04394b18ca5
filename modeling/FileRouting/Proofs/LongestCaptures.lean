import FileRouting.Proofs.Decomposition

/-! # The captured decomposition is the greatest

With rests in a route, a path may decompose along it in many ways.  The captures are those of the
way whose vector of lengths is lexicographically greatest: the first part is as long as it can be,
then the second one, and so on.

Only a rest has a choice, since the parts of all other segments stop at a slash or at the end of the
path, and its runs are tried from the longest to the shortest.  `Pattern.captureFrom_cons_eq_some`
says this of one segment, `Pattern.greatest_of_captureFrom` of a whole route. -/

namespace FileRouting

theorem pairwise_splits (accepts : Char → Bool) (t : Text) :
    (splits accepts t).Pairwise fun a b => b.1.length < a.1.length := by
  induction t with
  | nil => simp [splits]
  | cons c t ih =>
      rw [splits]
      split
      · rw [List.pairwise_append, List.pairwise_map]
        refine ⟨ih.imp fun h => Nat.succ_lt_succ h, List.pairwise_singleton .., ?_⟩
        -- the empty run comes behind all runs that take the first character
        intro a ha b hb
        obtain ⟨run, _, rfl⟩ := List.mem_map.1 ha
        rw [List.mem_singleton.1 hb]
        exact Nat.succ_pos _
      · exact List.pairwise_singleton ..

/-- A part without slashes ends where the next component starts. -/
theorem Text.eq_of_append_slashed {a b : Text} {as bs : List Text} (ha : '/' ∉ a) (hb : '/' ∉ b)
    (h : a ++ slashed as = b ++ slashed bs) : a = b := by
  have hpieces : pieces (slashed (a :: as)) = pieces (slashed (b :: bs)) := by
    rw [slashed_cons, slashed_cons, List.cons_append, List.cons_append, h]
  rw [pieces_slashed, pieces_slashed, List.flatMap_cons, List.flatMap_cons, pieces_of_notMem ha,
    pieces_of_notMem hb] at hpieces
  simp only [List.cons_append, List.cons.injEq] at hpieces
  exact hpieces.2.1

theorem Segment.pairwise_runs_of_rest {s : Segment} (hrest : s.kind = .rest) (input : Text) :
    (s.expr.runs input).Pairwise fun a b => b.1.length < a.1.length := by
  cases s with
  | rest name => exact pairwise_splits _ input
  | literal _ | choice _ _ | number _ | wildcard _ => cases hrest

/-- Without a rest, a path decomposes in one way at most. -/
theorem Decomposes.eq {segments : List Segment} (hwf : ∀ s ∈ segments, s.WellFormed)
    (hkind : ∀ s ∈ segments, s.kind ≠ .rest) {path : Text} {parts others : List Text}
    (h : Decomposes segments path parts) (h' : Decomposes segments path others) :
    parts = others :=
  Text.slashed_injective (h.slash_notMem hwf hkind) (h'.slash_notMem hwf hkind)
    (h.path_eq.symm.trans h'.path_eq)

namespace Pattern

/-- What a segment takes in a match, and that a rest could not take more: every longer part leads to
no match of the segments behind it. -/
theorem captureFrom_cons_eq_some {s : Segment} {segments : List Segment} (hs : s.WellFormed)
    {path : Text} {captured : List Text}
    (h : captureFrom (slashedItems (s :: segments)) path = some captured) :
    ∃ part remaining later, path = '/' :: part ++ remaining ∧ s.Takes part ∧
      captureFrom (slashedItems segments) remaining = some later ∧
      captured = (if s.kind.isNamed then [part] else []) ++ later ∧
      ∀ longer left, path = '/' :: longer ++ left → s.Takes longer → s.kind = .rest →
        part.length < longer.length → captureFrom (slashedItems segments) left = none := by
  rw [slashedItems_cons, captureFrom_slash_item, Option.bind_eq_some_iff] at h
  obtain ⟨input, hinput, hrun⟩ := h
  have hpath : path = '/' :: input := dropFront?_eq_some_iff.1 hinput
  obtain ⟨before, ⟨part, remaining⟩, after, hruns, hfound, hbefore⟩ :=
    List.findSome?_eq_some_iff.1 hrun
  obtain ⟨later, hlater, rfl⟩ := Option.map_eq_some_iff.1 hfound
  have hmem : (part, remaining) ∈ s.expr.runs input := by simp [hruns]
  obtain ⟨hsplit, hdescribes⟩ := Expr.mem_runs_iff.1 hmem
  refine ⟨part, remaining, later, by rw [hpath, hsplit]; rfl,
    (Segment.describes_expr_iff hs).1 hdescribes, hlater, rfl, ?_⟩
  intro longer left hleft htakes hrest hlonger
  have hinput' : input = longer ++ left := by
    rw [hpath] at hleft
    exact (List.cons.inj hleft).2
  have hlisted : (longer, left) ∈ s.expr.runs input :=
    Expr.mem_runs_iff.2 ⟨hinput', (Segment.describes_expr_iff hs).2 htakes⟩
  -- the runs get shorter along the list, so that a longer one has been tried before
  have hpairwise := Segment.pairwise_runs_of_rest hrest input
  rw [hruns, List.pairwise_append, List.pairwise_cons] at hpairwise
  rw [hruns] at hlisted
  rcases List.mem_append.1 hlisted with hlisted | hlisted
  · exact Option.map_eq_none_iff.1 (hbefore _ hlisted)
  · rcases List.mem_cons.1 hlisted with heq | hlisted
    · cases heq
      exact absurd hlonger (Nat.lt_irrefl _)
    · exact absurd (hpairwise.2.1.1 _ hlisted) (Nat.lt_asymm hlonger)

theorem greatest_of_captureFrom {segments : List Segment} (hwf : ∀ s ∈ segments, s.WellFormed)
    {path : Text} {captured : List Text}
    (h : captureFrom (slashedItems segments) path = some captured) :
    ∃ parts, Decomposes segments path parts ∧ captured = Segment.namedParts segments parts ∧
      ∀ others, Decomposes segments path others → others ≠ parts →
        List.Lex (· < ·) (others.map List.length) (parts.map List.length) := by
  induction segments generalizing path captured with
  | nil =>
      obtain ⟨parts, hparts, hcaptured⟩ := decomposes_of_captureFrom hwf h
      refine ⟨parts, hparts, hcaptured, ?_⟩
      intro others hothers hne
      cases hparts.takes
      cases hothers.takes
      exact absurd rfl hne
  | cons s segments ih =>
      rw [List.forall_mem_cons] at hwf
      obtain ⟨part, remaining, later, rfl, hpart, hlater, rfl, hlongest⟩ :=
        captureFrom_cons_eq_some hwf.1 h
      obtain ⟨parts, hparts, rfl, hgreatest⟩ := ih hwf.2 hlater
      refine ⟨part :: parts, .cons hpart hparts,
        (Segment.namedParts_cons s segments part parts).symm, ?_⟩
      rintro others ⟨hpath, htakes⟩ hne
      cases htakes with
      | @cons _ other _ others hother hothers =>
          rw [Text.slashed_cons] at hpath
          have htext : part ++ remaining = other ++ Text.slashed others := (List.cons.inj hpath).2
          by_cases hlength : other.length = part.length
          · -- parts of the same length are the same, and what is behind them decides
            obtain ⟨hsame, hleft⟩ := List.append_inj htext hlength.symm
            subst hsame
            have hothers' : Decomposes segments remaining others := ⟨hleft, hothers⟩
            exact .cons (hgreatest others hothers' fun heq => hne (by rw [heq]))
          · have hrest : s.kind = .rest := by
              by_contra hkind
              rw [hparts.path_eq] at htext
              have hsame := Text.eq_of_append_slashed
                (Segment.slash_notMem_of_takes hwf.1 hkind hpart)
                (Segment.slash_notMem_of_takes hwf.1 hkind hother) htext
              exact hlength (by rw [hsame])
            refine .rel (Nat.lt_of_le_of_ne ?_ hlength)
            by_contra hlonger
            have hnone := hlongest other _ hpath hother hrest (Nat.lt_of_not_le hlonger)
            have hsome := isSome_captureFrom_of_decomposes hwf.2 ⟨rfl, hothers⟩
            rw [hnone] at hsome
            cases hsome

end Pattern

namespace Route

theorem greatest_of_captures? {r : Route} {path : Text} {captured : List Text}
    (h : r.captures? path = some captured) :
    ∃ parts, Decomposes r.segments path parts ∧
      captured = Segment.namedParts r.segments parts ∧
      ∀ others, Decomposes r.segments path others → others ≠ parts →
        List.Lex (· < ·) (others.map List.length) (parts.map List.length) := by
  rw [captures?_eq] at h
  exact Pattern.greatest_of_captureFrom r.wellFormed h

/-- A route captures the parts of the decomposition of a path whose lengths are lexicographically
greatest, every other one being strictly less.  Without a rest there is no other one: the parts are
the pieces of the path between its slashes. -/
theorem captures_greatest_decomposition (r : Route) (path : Text) (h : r.accepts path) :
    (∃ parts, Decomposes r.segments path parts ∧
      r.captures? path = some (Segment.namedParts r.segments parts) ∧
      ∀ others, Decomposes r.segments path others → others ≠ parts →
        List.Lex (· < ·) (others.map List.length) (parts.map List.length)) ∧
    ((∀ s ∈ r.segments, s.kind ≠ .rest) → ∃ behind, path = '/' :: behind ∧
      ∀ parts, Decomposes r.segments path parts ↔ parts = Text.pieces behind) := by
  obtain ⟨captured, hcaptured⟩ := Option.isSome_iff_exists.1 h
  obtain ⟨parts, hparts, rfl, hgreatest⟩ := greatest_of_captures? hcaptured
  refine ⟨⟨parts, hparts, hcaptured, hgreatest⟩, ?_⟩
  intro hkind
  have hne : parts ≠ [] := by
    rintro rfl
    exact r.segments_ne_nil (List.length_eq_zero_iff.1 hparts.takes.length_eq)
  obtain ⟨behind, hbehind, hpieces⟩ :=
    Text.exists_slashed_eq_cons hne (hparts.slash_notMem r.wellFormed hkind)
  refine ⟨behind, hparts.path_eq.trans hbehind, ?_⟩
  intro others
  rw [hpieces]
  constructor
  · intro hothers
    exact hothers.eq r.wellFormed hkind hparts
  · rintro rfl
    exact hparts

/-- The route `/[p:**]/a/[q:**]`. -/
def aroundA : Route :=
  ⟨⟨[]⟩, "/[p:**]/a/[q:**]".toList, [.rest ['p'], .literal ['a'], .rest ['q']], none, by cbv⟩

/-- Of the two literals that the path holds, the later one is taken, because the first rest may
reach up to it; without a rest there is nothing to choose. -/
theorem captures_greatest_decomposition_aroundA :
    (aroundA.captures? "/x/a/y/a/z".toList = some ["x/a/y".toList, "z".toList] ∧
      Decomposes aroundA.segments "/x/a/y/a/z".toList ["x".toList, ['a'], "y/a/z".toList] ∧
      ∃ parts, aroundA.captures? "/x/a/y/a/z".toList =
          some (Segment.namedParts aroundA.segments parts) ∧
        List.Lex (· < ·) [1, 1, 5] (parts.map List.length)) ∧
    behindA.accepts "/a/b".toList ∧ ∃ behind, "/a/b".toList = '/' :: behind ∧
      ∀ parts, Decomposes behindA.segments "/a/b".toList parts ↔ parts = Text.pieces behind := by
  have hcaptures : aroundA.captures? "/x/a/y/a/z".toList = some ["x/a/y".toList, "z".toList] := by
    cbv
  have haccepts : aroundA.accepts "/x/a/y/a/z".toList := by
    rw [accepts, hcaptures]
    rfl
  have hfirst : '\n' ∉ "x".toList := by decide
  have hlast : '\n' ∉ "y/a/z".toList := by decide
  have hother : Decomposes aroundA.segments "/x/a/y/a/z".toList
      ["x".toList, ['a'], "y/a/z".toList] :=
    ⟨rfl, .cons hfirst (.cons rfl (.cons hlast .nil))⟩
  have hplain : behindA.accepts "/a/b".toList := by cbv
  obtain ⟨parts, _, hparts, hgreatest⟩ :=
    (captures_greatest_decomposition aroundA _ haccepts).1
  refine ⟨⟨hcaptures, hother, parts, hparts, hgreatest _ hother ?_⟩, hplain,
    (captures_greatest_decomposition behindA _ hplain).2 (by decide)⟩
  -- the other decomposition would be captured with a shorter first rest
  rintro rfl
  rw [hcaptures] at hparts
  exact absurd hparts (by decide)

end Route

end FileRouting
