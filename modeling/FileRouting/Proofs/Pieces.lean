import FileRouting.Text

/-! # Pieces of texts

`Text.pieces` and `Text.slashed` against each other.  Everything follows from one equation,
`pieces_append_slash`: splitting is a homomorphism at every slash. -/

namespace FileRouting

theorem notMem_of_mem_splitOn {α : Type} [BEq α] [LawfulBEq α] {a : α} {list piece : List α}
    (h : piece ∈ list.splitOn a) : a ∉ piece := by
  induction list generalizing piece with
  | nil =>
      have hpiece : piece = [] := by simpa using h
      simp [hpiece]
  | cons b list ih =>
      rw [List.splitOn_cons_eq_if_modifyHead] at h
      split at h
      · rcases List.mem_cons.1 h with rfl | h
        · simp
        · exact ih h
      · next hb =>
        -- an element that is not split at joins the first piece
        obtain ⟨first, others, hsplit⟩ := List.exists_cons_of_ne_nil (List.splitOn_ne_nil a list)
        rw [hsplit, List.modifyHead_cons] at h
        rcases List.mem_cons.1 h with rfl | h
        · have hfirst : a ∉ first := ih (hsplit ▸ List.mem_cons_self ..)
          have hne : a ≠ b := fun heq => hb (by simp [← heq])
          simp [hne, hfirst]
        · exact ih (hsplit ▸ List.mem_cons_of_mem _ h)

theorem flatMap_cons_eq_intercalate {α : Type} {a : α} {parts : List (List α)} (hne : parts ≠ []) :
    parts.flatMap (a :: ·) = a :: List.intercalate [a] parts := by
  obtain ⟨part, parts, rfl⟩ := List.exists_cons_of_ne_nil hne
  induction parts generalizing part with
  | nil => simp [List.intercalate]
  | cons next parts ih =>
      rw [List.flatMap_cons, ih next (List.cons_ne_nil next parts)]
      simp [List.intercalate]

namespace Text

theorem pieces_append_slash (before behind : Text) :
    pieces (before ++ '/' :: behind) = pieces before ++ pieces behind :=
  List.splitOn_append_cons_self before behind

@[simp] theorem pieces_slash (behind : Text) : pieces ('/' :: behind) = [] :: pieces behind := by
  simpa [pieces] using pieces_append_slash [] behind

theorem pieces_ne_nil (t : Text) : pieces t ≠ [] := List.splitOn_ne_nil '/' t

theorem pieces_of_notMem {t : Text} (h : '/' ∉ t) : pieces t = [t] := List.splitOn_eq_singleton h

theorem notMem_of_mem_pieces {t piece : Text} (h : piece ∈ pieces t) : '/' ∉ piece :=
  notMem_of_mem_splitOn h

theorem slashed_append (front back : List Text) :
    slashed (front ++ back) = slashed front ++ slashed back := by
  simp [slashed]

/-- A text written with a slash before each of its pieces has one slash more, in front. -/
@[simp] theorem slashed_pieces (t : Text) : slashed (pieces t) = '/' :: t := by
  induction t with
  | nil => simp [pieces]
  | cons c t ih =>
      obtain ⟨first, others, hsplit⟩ := List.exists_cons_of_ne_nil (pieces_ne_nil t)
      rw [hsplit, slashed_cons] at ih
      rw [pieces, List.splitOn_cons_eq_if_modifyHead, ← pieces, hsplit]
      split
      · next hc =>
        have hslash : c = '/' := by simpa using hc
        rw [slashed_cons, slashed_cons, ih, hslash]
        rfl
      · rw [List.modifyHead_cons, slashed_cons]
        simpa using ih

theorem slashed_eq_intercalate {parts : List Text} (hne : parts ≠ []) :
    slashed parts = '/' :: List.intercalate ['/'] parts :=
  flatMap_cons_eq_intercalate hne

theorem subset_of_mem_pieces {t piece : Text} (h : piece ∈ pieces t) : piece ⊆ t := by
  intro c hc
  have hmem : c ∈ slashed (pieces t) :=
    List.mem_flatMap.2 ⟨piece, h, List.mem_cons_of_mem _ hc⟩
  rw [slashed_pieces] at hmem
  rcases List.mem_cons.1 hmem with rfl | hmem
  · exact absurd hc (notMem_of_mem_pieces h)
  · exact hmem

/-- The pieces of written components are the pieces of each, behind an empty one. -/
theorem pieces_slashed (parts : List Text) :
    pieces (slashed parts) = [] :: parts.flatMap pieces := by
  induction parts with
  | nil => simp [pieces]
  | cons part parts ih =>
      cases parts with
      | nil => simp
      | cons next parts =>
          rw [slashed_cons, slashed_cons, List.cons_append, List.cons_append, pieces_slash,
            pieces_append_slash, List.flatMap_cons]
          rw [slashed_cons, List.cons_append, pieces_slash, List.cons_eq_cons] at ih
          rw [ih.2]

theorem flatMap_pieces_of_notMem {parts : List Text} (h : ∀ part ∈ parts, '/' ∉ part) :
    parts.flatMap pieces = parts := by
  induction parts with
  | nil => rfl
  | cons part parts ih =>
      rw [List.forall_mem_cons] at h
      rw [List.flatMap_cons, pieces_of_notMem h.1, ih h.2]
      rfl

theorem pieces_slashed_of_notMem {parts : List Text} (h : ∀ part ∈ parts, '/' ∉ part) :
    pieces (slashed parts) = [] :: parts := by
  rw [pieces_slashed, flatMap_pieces_of_notMem h]

theorem exists_slashed_eq_cons {parts : List Text} (hne : parts ≠ [])
    (h : ∀ part ∈ parts, '/' ∉ part) :
    ∃ behind, slashed parts = '/' :: behind ∧ pieces behind = parts := by
  cases parts with
  | nil => exact absurd rfl hne
  | cons part parts =>
      refine ⟨part ++ slashed parts, slashed_cons part parts, ?_⟩
      have hpieces := pieces_slashed_of_notMem h
      rw [slashed_cons, List.cons_append, pieces_slash, List.cons_eq_cons] at hpieces
      exact hpieces.2

/-- Components without slashes can be read back. -/
theorem slashed_injective {as bs : List Text} (ha : ∀ a ∈ as, '/' ∉ a) (hb : ∀ b ∈ bs, '/' ∉ b)
    (h : slashed as = slashed bs) : as = bs := by
  have hpieces := congrArg pieces h
  rw [pieces_slashed_of_notMem ha, pieces_slashed_of_notMem hb, List.cons_eq_cons] at hpieces
  exact hpieces.2

end Text

end FileRouting
