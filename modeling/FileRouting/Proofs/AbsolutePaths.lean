import FileRouting.Disk.Path
import FileRouting.Proofs.Pieces

/-! # Absolute paths

`Path.absolute?` writes a path in a form that it leaves alone, whatever the working directory: from
the root directory, at most one slash more in front, names with one slash before each, and at most
one slash behind them.  `Path.Plain` is this form. -/

namespace FileRouting.Disk

namespace Path

/-! ## Pieces of written paths -/

theorem slash_notMem_of_mem_pieces {p : Path} {piece : Bytes} (h : piece ∈ p.pieces) :
    slash ∉ piece :=
  notMem_of_mem_splitOn h

theorem pieces_ofPieces {first : Bytes} {body : List Bytes} (hfirst : slash ∉ first)
    (hbody : ∀ piece ∈ body, slash ∉ piece) :
    pieces ⟨first ++ slashed body⟩ = first :: body := by
  rw [pieces, ← intercalate_slash]
  apply List.splitOn_intercalate
  · exact List.forall_mem_cons.2 ⟨hfirst, hbody⟩
  · exact List.cons_ne_nil first body

@[simp] theorem slashed_nil : slashed [] = [] := rfl

@[simp] theorem slashed_cons (piece : Bytes) (body : List Bytes) :
    slashed (piece :: body) = slash :: piece ++ slashed body := by
  simp [slashed]

theorem pieces_slashed {body : List Bytes} (h : ∀ piece ∈ body, slash ∉ piece) :
    pieces ⟨slashed body⟩ = [] :: body :=
  pieces_ofPieces (List.not_mem_nil) h

theorem ne_nil_of_isIdle {piece : Bytes} (h : isIdle piece = false) : piece ≠ [] := by
  rintro rfl
  cases h

/-! ## The form of absolute paths -/

/-- Whether a path is written from the root directory as an absolute path is, with the given names:
`front` and `back` are the empty pieces that two slashes in front and a slash at the end leave. -/
structure PlainWith (p : Path) (front names back : List Bytes) : Prop where
  bytes : p.bytes = slashed (front ++ names ++ back)
  front : front = [] ∨ front = [[]]
  back : back = [] ∧ names ≠ [] ∨ back = [[]]
  names : ∀ name ∈ names, isIdle name = false ∧ slash ∉ name

def Plain (p : Path) : Prop := ∃ front names back, p.PlainWith front names back

variable {current : WorkingDirectory}

theorem proper_of_mem_absolutePieces {p : Path} {name : Bytes}
    (h : name ∈ p.absolutePieces current) : isIdle name = false ∧ slash ∉ name := by
  rcases List.mem_append.1 h with hcurrent | hpiece
  · split at hcurrent
    · cases hcurrent
    · exact current.proper name hcurrent
  · obtain ⟨hpiece, hidle⟩ := List.mem_filter.1 hpiece
    exact ⟨by simpa using hidle, slash_notMem_of_mem_pieces hpiece⟩

theorem plain_of_absolute? {p q : Path} (h : p.absolute? current = some q) : q.Plain := by
  have hroot : p.rootBytes = slashed [[]] ∨ p.rootBytes = slashed [[], []] := by
    unfold rootBytes
    split
    · split
      · exact .inl rfl
      · exact .inr rfl
    · exact .inl rfl
  unfold absolute? at h
  split at h
  · cases h
  split at h
  · cases h
    rcases hroot with hroot | hroot
    · exact ⟨[], [], [[]], hroot, .inl rfl, .inr rfl, by simp⟩
    · exact ⟨[[]], [], [[]], hroot, .inr rfl, .inr rfl, by simp⟩
  · next first body hnames =>
    cases h
    have hproper : ∀ name ∈ first :: body, isIdle name = false ∧ slash ∉ name := by
      rw [← hnames]
      exact fun name hname => proper_of_mem_absolutePieces hname
    have hback : (if p.endsWithSlash = true then [slash] else []) =
        slashed (if p.endsWithSlash = true then [[]] else []) := by
      split <;> rfl
    refine ⟨if p.rootBytes = [slash] then [] else [[]], first :: body,
      if p.endsWithSlash then [[]] else [], ?_, ?_, ?_, hproper⟩
    · rw [hback]
      rcases hroot with hroot | hroot <;> rw [hroot] <;> simp [slashed, List.flatMap_append]
    · split <;> simp
    · split <;> simp

theorem endsWithSlash_of_name {p : Path} {before name : Bytes} (h : p.bytes = before ++ name)
    (hne : name ≠ []) (hname : slash ∉ name) : p.endsWithSlash = false := by
  rw [endsWithSlash, h, List.getLast?_append, decide_eq_false_iff_not,
    List.getLast?_eq_some_getLast hne]
  intro hlast
  have hslash : name.getLast hne = slash := by simpa using hlast
  exact hname (hslash ▸ List.getLast_mem hne)

theorem rootBytes_of_name (p : Path) {name : Bytes} (hne : name ≠ []) (hname : slash ∉ name)
    (behind : Bytes) : (p.bytes = slash :: (name ++ behind) → p.rootBytes = [slash]) ∧
      (p.bytes = slash :: slash :: (name ++ behind) → p.rootBytes = [slash, slash]) := by
  cases name with
  | nil => exact absurd rfl hne
  | cons b name =>
      have hb : slash ≠ b := fun heq => hname (heq ▸ List.mem_cons_self ..)
      constructor
      · intro hbytes
        simp [rootBytes, dropFront?, hb, hbytes]
      · intro hbytes
        simp [rootBytes, dropFront?, hb.symm, hbytes]

theorem filter_of_idle {pieces : List Bytes} (h : ∀ piece ∈ pieces, isIdle piece = true) :
    pieces.filter (fun piece => !isIdle piece) = [] := by
  rw [List.filter_eq_nil_iff]
  intro piece hpiece
  simp [h piece hpiece]

namespace PlainWith

variable {p : Path} {front names back : List Bytes}

theorem nil_of_mem_front (h : p.PlainWith front names back) : ∀ piece ∈ front, piece = [] := by
  obtain rfl | rfl := h.front <;> simp

theorem nil_of_mem_back (h : p.PlainWith front names back) : ∀ piece ∈ back, piece = [] := by
  obtain ⟨rfl, _⟩ | rfl := h.back <;> simp

theorem eq_mk (h : p.PlainWith front names back) : p = ⟨slashed (front ++ names ++ back)⟩ := by
  rw [← h.bytes]

theorem isAbsolute (h : p.PlainWith front names back) : p.isAbsolute := by
  have hne : front ++ names ++ back ≠ [] := by
    obtain ⟨_, hne⟩ | rfl := h.back
    · simp [hne]
    · simp
  obtain ⟨piece, pieces, hpieces⟩ := List.exists_cons_of_ne_nil hne
  simp [Path.isAbsolute, h.bytes, hpieces]

/-- The proper pieces of the path are its names. -/
theorem filter_pieces (h : p.PlainWith front names back) :
    p.pieces.filter (fun piece => !isIdle piece) = names := by
  have hslash : ∀ piece ∈ front ++ names ++ back, slash ∉ piece := by
    intro piece hpiece
    rw [List.mem_append, List.mem_append] at hpiece
    obtain (hpiece | hpiece) | hpiece := hpiece
    · simp [h.nil_of_mem_front piece hpiece]
    · exact (h.names piece hpiece).2
    · simp [h.nil_of_mem_back piece hpiece]
  have hfront : ∀ piece ∈ front, isIdle piece = true :=
    fun piece hpiece => by simp [isIdle, h.nil_of_mem_front piece hpiece]
  have hback : ∀ piece ∈ back, isIdle piece = true :=
    fun piece hpiece => by simp [isIdle, h.nil_of_mem_back piece hpiece]
  rw [h.eq_mk, pieces_slashed hslash, List.filter_cons_of_neg (by decide), List.filter_append,
    List.filter_append, filter_of_idle hfront, filter_of_idle hback, List.append_nil,
    List.nil_append, List.filter_eq_self]
  exact fun name hname => by simp [(h.names name hname).1]

/-- The slashes in front are kept, because a name comes behind them. -/
theorem rootBytes_eq (h : p.PlainWith front names back) (hne : names ≠ []) :
    p.rootBytes = slashed front ++ [slash] := by
  obtain ⟨first, body, rfl⟩ := List.exists_cons_of_ne_nil hne
  have hfirst := h.names first (List.mem_cons_self ..)
  have hroot := rootBytes_of_name p (ne_nil_of_isIdle hfirst.1) hfirst.2 (slashed (body ++ back))
  obtain rfl | rfl := h.front
  · exact hroot.1 (by simp [h.bytes])
  · exact hroot.2 (by simp [h.bytes])

/-- The slash at the end is kept. -/
theorem ending_eq (h : p.PlainWith front names back) :
    (if p.endsWithSlash then [slash] else []) = slashed back := by
  obtain ⟨rfl, hne⟩ | rfl := h.back
  · have hlast := h.names _ (List.getLast_mem hne)
    have hbytes : p.bytes =
        (slashed (front ++ names.dropLast) ++ [slash]) ++ names.getLast hne := by
      have hsplit := congrArg slashed (List.dropLast_concat_getLast hne)
      rw [slashed_append, slashed_cons, slashed_nil, List.append_nil] at hsplit
      rw [h.bytes, List.append_nil, slashed_append, slashed_append, ← hsplit]
      simp
    rw [endsWithSlash_of_name hbytes (ne_nil_of_isIdle hlast.1) hlast.2]
    rfl
  · have hends : p.endsWithSlash = true := by
      rw [endsWithSlash, h.bytes, slashed_append, List.getLast?_append]
      rfl
    rw [hends]
    rfl

end PlainWith

theorem absolute?_of_plain {p : Path} (h : p.Plain) (current : WorkingDirectory) :
    p.absolute? current = some p := by
  obtain ⟨front, names, back, h⟩ := h
  cases names with
  | nil =>
      -- only slashes: the root directory, written with one or with two
      rw [h.eq_mk]
      obtain ⟨_, hne⟩ | rfl := h.back
      · exact absurd rfl hne
      · obtain rfl | rfl := h.front <;> rfl
  | cons first body =>
      have hne : p.bytes ≠ [] := by simp [h.bytes]
      rw [absolute?, if_neg hne, absolutePieces, if_pos h.isAbsolute, h.filter_pieces]
      show some (⟨p.rootBytes ++ first ++ slashed body ++
        if p.endsWithSlash then [slash] else []⟩ : Path) = some p
      rw [h.rootBytes_eq (List.cons_ne_nil first body), h.ending_eq, h.eq_mk]
      simp

theorem isAbsolute_of_absolute? {p q : Path} (h : p.absolute? current = some q) :
    q.isAbsolute := by
  obtain ⟨_, _, _, hplain⟩ := plain_of_absolute? h
  exact hplain.isAbsolute

/-- An absolute path is left as it is, whatever the working directory is then. -/
theorem absolute?_idem {p q : Path} (h : p.absolute? current = some q) (later : WorkingDirectory) :
    q.absolute? later = some q :=
  absolute?_of_plain (plain_of_absolute? h) later

end Path

end FileRouting.Disk
