import FileRouting.Proofs.Descent

/-! # Parents by components

`Path.parent?` works on how a path is written, and means the path without its last component
(`components_parent?`), for relative paths with their leading dot as well.  The paths that have no
parent are the empty one and the root directory.

Going up from inside a bound therefore stays inside until it comes to the bound itself
(`startsWith_parent?`), unless the bound is the empty path, which all paths start with and absolute
paths never come to (`components_eq_nil_of_startsWith`). -/

namespace FileRouting.Disk.Path

variable {p q stop : Path}

/-! ## One step up -/

theorem filterMap_ofPiece?_rdropWhile (pieces : List Bytes) :
    (pieces.rdropWhile isIdle).filterMap Component.ofPiece? =
      pieces.filterMap Component.ofPiece? := by
  have hidle : (pieces.rtakeWhile isIdle).filterMap Component.ofPiece? = [] :=
    filterMap_ofPiece?_of_idle fun _ => List.mem_rtakeWhile_imp
  conv_rhs =>
    rw [← List.rdropWhile_append_rtakeWhile (p := isIdle) (l := pieces), List.filterMap_append,
      hidle, List.append_nil]

/-- Either a piece behind the first one is the last component, which the parent lacks, or the path
consists of its first piece, and only a relative path has a parent then. -/
theorem parent?_cases (p : Path) : ∃ first body, p.pieces = first :: body ∧
    ((∃ before last idle, body = before ++ last :: idle ∧ isIdle last = false ∧
        (∀ piece ∈ idle, isIdle piece = true) ∧
        p.parent? = some (ofPieces first (before.rdropWhile isIdle))) ∨
      (∀ piece ∈ body, isIdle piece = true) ∧
        p.parent? = if first = [] then none else some ⟨[]⟩) := by
  obtain ⟨first, body, hpieces⟩ : ∃ first body, p.pieces = first :: body :=
    List.exists_cons_of_ne_nil (List.splitOn_ne_nil slash p.bytes)
  refine ⟨first, body, hpieces, ?_⟩
  have hsplit : body.rdropWhile isIdle ++ body.rtakeWhile isIdle = body :=
    List.rdropWhile_append_rtakeWhile ..
  have hidle : ∀ piece ∈ body.rtakeWhile isIdle, isIdle piece = true :=
    fun _ => List.mem_rtakeWhile_imp
  cases hdropped : body.reverse.dropWhile isIdle with
  | nil =>
      have hnil : body.rdropWhile isIdle = [] := by rw [List.rdropWhile, hdropped]; rfl
      rw [hnil, List.nil_append] at hsplit
      refine .inr ⟨hsplit ▸ hidle, ?_⟩
      rw [parent?, hpieces]
      simp only [hdropped]
  | cons last before =>
      have hkept : body.rdropWhile isIdle = before.reverse ++ [last] := by
        rw [List.rdropWhile, hdropped, List.reverse_cons]
      have hlast : isIdle last = false := by
        have hhead := List.head_dropWhile_not isIdle (l := body.reverse) (by simp [hdropped])
        simpa [hdropped] using hhead
      refine .inl ⟨before.reverse, last, body.rtakeWhile isIdle, ?_, hlast, hidle, ?_⟩
      · rw [hkept, List.append_assoc] at hsplit
        exact hsplit.symm
      · rw [parent?, hpieces]
        simp only [hdropped, List.rdropWhile, List.reverse_reverse]

theorem components_parent? (h : p.parent? = some q) : q.components = p.components.dropLast := by
  obtain ⟨first, body, hpieces,
    ⟨before, last, idle, rfl, hlast, hidle, hparent⟩ | ⟨hidle, hparent⟩⟩ := parent?_cases p
  · obtain ⟨hfirst, hbody⟩ := slash_notMem_of_pieces hpieces
    obtain ⟨component, hcomponent⟩ : ∃ component, Component.ofPiece? last = some component := by
      rw [← Option.ne_none_iff_exists', Ne, Component.ofPiece?_eq_none_iff, hlast]
      exact Bool.false_ne_true
    have hbefore : ∀ piece ∈ before.rdropWhile isIdle, slash ∉ piece := by
      intro piece hpiece
      exact hbody piece (List.mem_append_left _ ((List.rdropWhile_prefix ..).subset hpiece))
    have hne : p.bytes ≠ [] := by
      rw [bytes_eq_of_pieces hpieces]
      simp
    obtain rfl := Option.some.inj (h.symm.trans hparent)
    rw [components_ofPieces hfirst hbefore, filterMap_ofPiece?_rdropWhile,
      components_of_pieces hpieces hne, List.filterMap_append, List.filterMap_cons, hcomponent,
      filterMap_ofPiece?_of_idle hidle, ← List.append_assoc, List.dropLast_concat]
  · by_cases hnil : first = []
    · rw [if_pos hnil, h] at hparent
      cases hparent
    · rw [if_neg hnil, h] at hparent
      cases hparent
      have hne : p.bytes ≠ [] := by
        rw [bytes_eq_of_pieces hpieces]
        simp [hnil]
      rw [components_empty, components_of_pieces hpieces hne, filterMap_ofPiece?_of_idle hidle]
      cases Component.ofFirst? first <;> rfl

theorem components_of_parent?_eq_none (h : p.parent? = none) :
    p.components = [] ∨ p.components = [.root] := by
  obtain ⟨first, body, hpieces, ⟨_, _, _, _, _, _, hparent⟩ | ⟨hidle, hparent⟩⟩ :=
    parent?_cases p
  · cases h.symm.trans hparent
  · by_cases hnil : first = []
    · subst hnil
      by_cases hempty : p.bytes = []
      · left
        have hp : p = ⟨[]⟩ := by rw [← hempty]
        rw [hp, components_empty]
      · right
        rw [components_of_pieces hpieces hempty, filterMap_ofPiece?_of_idle hidle]
        rfl
    · rw [if_neg hnil, h] at hparent
      cases hparent

/-! ## The way up -/

/-- Inside a bound, the parent is inside or is the bound. -/
theorem startsWith_parent? (h : p.parent? = some q) (hinside : p.StartsWith stop)
    (hbelow : ¬ p.Same stop) : q.StartsWith stop := by
  obtain ⟨names, hnames⟩ := hinside
  have hne : names ≠ [] := by
    rintro rfl
    exact hbelow (by rw [Same, ← hnames, List.append_nil])
  rw [StartsWith, components_parent? h, ← hnames, List.dropLast_append_of_ne_nil hne]
  exact List.prefix_append ..

/-- What has no parent starts with itself or with the empty path. -/
theorem components_eq_nil_of_startsWith (h : p.parent? = none) (hinside : p.StartsWith stop)
    (hother : ¬ p.Same stop) : stop.components = [] := by
  rw [StartsWith] at hinside
  rw [Same] at hother
  rcases components_of_parent?_eq_none h with hempty | hroot
  · rw [hempty] at hinside
    exact List.prefix_nil.1 hinside
  · rw [hroot] at hinside hother
    rcases List.prefix_cons_iff.1 hinside with hnil | ⟨names, hnames, hprefix⟩
    · exact hnil
    · rw [List.prefix_nil.1 hprefix] at hnames
      exact absurd hnames.symm hother

theorem of_ancestors_eq_cons {above : List Path} (h : p.ancestors = q :: above) :
    p.parent? = some q ∧ q.ancestors = above := by
  cases hparent : p.parent? with
  | none =>
      rw [ancestors] at h
      split at h
      · cases h
      · next found hfound =>
        rw [hparent] at hfound
        cases hfound
  | some found =>
      rw [ancestors_of_parent? hparent, List.cons.injEq] at h
      obtain ⟨rfl, habove⟩ := h
      exact ⟨rfl, habove⟩

end FileRouting.Disk.Path
