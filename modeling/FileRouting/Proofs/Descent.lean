import FileRouting.Disk.Walk
import FileRouting.Proofs.Components
import Mathlib.Data.List.DropRight

/-! # Paths below a directory

The path of an entry is the path of its directory with a slash and the name behind it, and so on
from directory to directory.  On the way back up, `Path.parent?` meets the same paths again, each of
them without the slashes and dots at its end: that is `Path.trimmed`, which changes nothing but how
the directory at the top is written.

What a path means is in its `Path.parts`, the pieces that are neither empty nor a dot: they
determine the components, and they are what remains to be followed in a file tree. -/

namespace FileRouting.Disk

theorem isIdle_of_isName {n : Bytes} (h : IsName n) : Path.isIdle n = false := by
  simp [Path.isIdle, h.1, h.2.2.2.2.1]

namespace Path

variable {p : Path} {n : Bytes}

/-- The pieces of a path that are neither empty nor a dot. -/
def parts (p : Path) : List Bytes := p.pieces.filter fun piece => !isIdle piece

/-- An absolute path without the slashes and dots behind its last component. -/
def trimmed (p : Path) : Path := ofPieces [] (p.pieces.tail.rdropWhile isIdle)

theorem exists_body (h : p.isAbsolute) :
    ∃ body, body ≠ [] ∧ p.bytes = slashed body ∧ p.pieces = [] :: body := by
  obtain ⟨behind, hbytes⟩ : ∃ behind, p.bytes = slash :: behind := by
    cases hcases : p.bytes with
    | nil => simp [isAbsolute, hcases] at h
    | cons b behind =>
        simp only [isAbsolute, hcases, List.head?_cons, decide_eq_true_eq, Option.some.injEq] at h
        exact ⟨behind, by rw [h]⟩
  have hpieces : p.pieces = [] :: behind.splitOn slash := by
    rw [pieces, hbytes]
    exact List.splitOn_append_cons_self [] behind
  exact ⟨behind.splitOn slash, List.splitOn_ne_nil slash behind,
    by simpa using bytes_eq_of_pieces hpieces, hpieces⟩

theorem parts_of_pieces {body : List Bytes} (h : p.pieces = [] :: body) :
    p.parts = body.filter fun piece => !isIdle piece := by
  rw [parts, h, List.filter_cons_of_neg (by decide)]

/-- The components of an absolute path, by its parts. -/
theorem components_eq (h : p.isAbsolute) :
    p.components = .root :: p.parts.filterMap Component.ofPiece? := by
  rw [components, lead, if_pos h, parts, List.filterMap_filter, List.singleton_append]
  congr 1
  apply List.filterMap_congr
  intro piece _
  by_cases hidle : piece = [] ∨ piece = here
  · simp [Component.ofPiece?, hidle]
  · have hproper : isIdle piece = false := by simpa [isIdle] using hidle
    simp [hproper]

/-! ## One entry -/

theorem pieces_child (h : p.isAbsolute) (hn : slash ∉ n) :
    ∃ body idle, p.pieces = [] :: (body ++ idle) ∧ (∀ piece ∈ idle, isIdle piece = true) ∧
      (p.child n).bytes = slashed (body ++ [n]) ∧ (p.child n).pieces = [] :: (body ++ [n]) := by
  obtain ⟨full, _, _, hfull⟩ := exists_body h
  have hne : p.bytes ≠ [] := by
    intro hnil
    simp [isAbsolute, hnil] at h
  obtain ⟨first, body, idle, hpieces, hidle, hchild⟩ := exists_pieces_child hne hn
  obtain ⟨rfl, _⟩ := List.cons.inj (hfull.symm.trans hpieces)
  exact ⟨body, idle, hpieces, hidle, bytes_eq_of_pieces hchild, hchild⟩

/-- A name is what stands behind the last slash of the path of its entry. -/
theorem exists_child_eq (h : p.isAbsolute) (hn : slash ∉ n) :
    ∃ directory : Bytes, p.child n = ⟨directory ++ slash :: n⟩ := by
  obtain ⟨body, _, _, _, hbytes, _⟩ := pieces_child h hn
  rw [slashed_append, slashed_cons, slashed_nil, List.append_nil] at hbytes
  exact ⟨slashed body, congrArg Path.mk hbytes⟩

theorem isAbsolute_child (h : p.isAbsolute) (n : Bytes) : (p.child n).isAbsolute := by
  obtain ⟨body, hne, hbytes, _⟩ := exists_body h
  obtain ⟨piece, body, rfl⟩ := List.exists_cons_of_ne_nil hne
  unfold child
  split <;> simp [isAbsolute, hbytes]

theorem parts_child (h : p.isAbsolute) (hn : IsName n) : (p.child n).parts = p.parts ++ [n] := by
  obtain ⟨body, idle, hpieces, hidle, _, hchild⟩ := pieces_child h hn.2.2.1
  rw [parts_of_pieces hpieces, parts_of_pieces hchild, List.filter_append, List.filter_append,
    filter_of_idle hidle, List.append_nil, List.filter_cons_of_pos (by simp [isIdle_of_isName hn])]
  rfl

theorem trimmed_child (h : p.isAbsolute) (hn : IsName n) : (p.child n).trimmed = p.child n := by
  obtain ⟨body, _, _, _, hbytes, hchild⟩ := pieces_child h hn.2.2.1
  have hkept : (body ++ [n]).rdropWhile isIdle = body ++ [n] :=
    List.rdropWhile_concat_neg _ _ _ (by simp [isIdle_of_isName hn])
  rw [trimmed, hchild, List.tail_cons, hkept]
  obtain ⟨piece, others, hcons⟩ := List.exists_cons_of_ne_nil (List.append_ne_nil_of_right_ne_nil
    body (List.cons_ne_nil n []))
  rw [hcons] at hbytes ⊢
  exact congrArg Path.mk hbytes.symm

/-- Above an entry is its directory. -/
theorem parent?_child (h : p.isAbsolute) (hn : IsName n) :
    (p.child n).parent? = some p.trimmed := by
  obtain ⟨body, idle, hpieces, hidle, _, hchild⟩ := pieces_child h hn.2.2.1
  have hrest : (body.reverse.dropWhile isIdle).reverse = (body ++ idle).rdropWhile isIdle := by
    rw [List.rdropWhile, List.reverse_append, List.dropWhile_append_of_pos]
    simpa using hidle
  have hlast : (body ++ [n]).reverse.dropWhile isIdle = n :: body.reverse := by
    rw [List.reverse_concat, List.dropWhile_cons_of_neg (by simp [isIdle_of_isName hn])]
  rw [parent?, hchild]
  simp only [hlast]
  rw [hrest, trimmed, hpieces, List.tail_cons]

/-! ## Without the end -/

/-- A trimmed path is written with the pieces that it had, up to the last proper one. -/
theorem trimmed_cases (h : p.isAbsolute) :
    ∃ kept idle, p.bytes = slashed (kept ++ idle) ∧ p.pieces = [] :: (kept ++ idle) ∧
      (∀ piece ∈ idle, isIdle piece = true) ∧
      (kept = [] ∧ idle ≠ [] ∧ p.trimmed.bytes = [slash] ∨
        kept ≠ [] ∧ p.trimmed.bytes = slashed kept) := by
  obtain ⟨body, hne, hbytes, hpieces⟩ := exists_body h
  have hidle : ∀ piece ∈ body.rtakeWhile isIdle, isIdle piece = true :=
    fun _ => List.mem_rtakeWhile_imp
  have hsplit : body = body.rdropWhile isIdle ++ body.rtakeWhile isIdle :=
    (List.rdropWhile_append_rtakeWhile ..).symm
  rw [trimmed, hpieces, List.tail_cons]
  generalize body.rdropWhile isIdle = kept at hsplit ⊢
  generalize body.rtakeWhile isIdle = idle at hidle hsplit
  subst hsplit
  refine ⟨kept, idle, hbytes, rfl, hidle, ?_⟩
  cases kept with
  | nil => exact .inl ⟨rfl, hne, rfl⟩
  | cons piece kept => exact .inr ⟨by simp, rfl⟩

theorem bytes_trimmed_isPrefix (h : p.isAbsolute) : p.trimmed.bytes <+: p.bytes := by
  obtain ⟨kept, idle, hbytes, _, _, ⟨rfl, hne, htrimmed⟩ | ⟨_, htrimmed⟩⟩ := trimmed_cases h
  · obtain ⟨piece, idle, rfl⟩ := List.exists_cons_of_ne_nil hne
    rw [htrimmed, hbytes]
    simp
  · rw [htrimmed, hbytes, slashed_append]
    exact List.prefix_append ..

theorem isAbsolute_trimmed (h : p.isAbsolute) : p.trimmed.isAbsolute := by
  obtain ⟨kept, idle, _, _, _, ⟨_, _, htrimmed⟩ | ⟨hne, htrimmed⟩⟩ := trimmed_cases h
  · simp [isAbsolute, htrimmed]
  · obtain ⟨piece, kept, rfl⟩ := List.exists_cons_of_ne_nil hne
    simp [isAbsolute, htrimmed]

theorem parts_trimmed (h : p.isAbsolute) : p.trimmed.parts = p.parts := by
  obtain ⟨kept, idle, _, hpieces, hidle, htrimmed⟩ := trimmed_cases h
  have hslash : ∀ piece ∈ kept, slash ∉ piece := by
    intro piece hpiece
    apply slash_notMem_of_mem_pieces (p := p)
    rw [hpieces]
    exact List.mem_cons_of_mem _ (List.mem_append_left _ hpiece)
  have hkept : p.parts = kept.filter fun piece => !isIdle piece := by
    rw [parts_of_pieces hpieces, List.filter_append, filter_of_idle hidle, List.append_nil]
  rw [hkept]
  obtain ⟨rfl, _, htrimmed⟩ | ⟨_, htrimmed⟩ := htrimmed
  · have hroot : p.trimmed = ⟨[slash]⟩ := by rw [← htrimmed]
    rw [hroot]
    decide
  · have hbytes : p.trimmed = ⟨slashed kept⟩ := by rw [← htrimmed]
    rw [hbytes]
    exact parts_of_pieces (pieces_slashed hslash)

theorem trimmed_same (h : p.isAbsolute) : p.trimmed.Same p := by
  rw [Same, components_eq h, components_eq (isAbsolute_trimmed h), parts_trimmed h]

theorem fault?_of_isPrefix {q : Path} (hfront : q.bytes <+: p.bytes) (hq : q.isAbsolute)
    (h : p.fault? = none) : q.fault? = none := by
  have hlength := hfront.length_le
  have hne : q.bytes ≠ [] := by
    intro hnil
    simp [isAbsolute, hnil] at hq
  unfold fault? at h ⊢
  split at h
  · cases h
  next hnul =>
  split at h
  · cases h
  next hlimit =>
  rw [if_neg fun hmem => hnul (hfront.subset hmem), if_neg (by omega), if_neg hne]

theorem fault?_trimmed (h : p.isAbsolute) (hfault : p.fault? = none) : p.trimmed.fault? = none :=
  fault?_of_isPrefix (bytes_trimmed_isPrefix h) (isAbsolute_trimmed h) hfault

/-! ## Entries further down -/

variable {root : Path} {names : List Bytes}

theorem isAbsolute_descend (h : root.isAbsolute) (names : List Bytes) :
    (root.descend names).isAbsolute := by
  induction names with
  | nil => exact h
  | cons name names ih => exact isAbsolute_child ih name

theorem parts_descend (h : root.isAbsolute) (hnames : ∀ name ∈ names, IsName name) :
    (root.descend names).parts = root.parts ++ names.reverse := by
  induction names with
  | nil => simp [descend]
  | cons name names ih =>
      rw [List.forall_mem_cons] at hnames
      rw [descend, parts_child (isAbsolute_descend h names) hnames.1, ih hnames.2]
      simp

theorem components_descend (h : root.isAbsolute) (hnames : ∀ name ∈ names, IsName name) :
    (root.descend names).components = root.components ++ names.reverse.map .name := by
  have hproper : names.reverse.filterMap Component.ofPiece? = names.reverse.map .name := by
    rw [← List.filterMap_eq_map]
    apply List.filterMap_congr
    intro name hname
    have hname := hnames name (List.mem_reverse.1 hname)
    simp [Component.ofPiece?, hname.1, hname.2.2.2.2.1, hname.2.2.2.2.2]
  rw [components_eq (isAbsolute_descend h names), components_eq h, parts_descend h hnames,
    List.filterMap_append, hproper]
  rfl

theorem trimmed_descend (h : root.isAbsolute) (hne : names ≠ [])
    (hnames : ∀ name ∈ names, IsName name) :
    (root.descend names).trimmed = root.descend names := by
  obtain ⟨name, names, rfl⟩ := List.exists_cons_of_ne_nil hne
  exact trimmed_child (isAbsolute_descend h names) (hnames name (List.mem_cons_self ..))

theorem ancestors_of_parent? {q : Path} (h : p.parent? = some q) :
    p.ancestors = q :: q.ancestors := by
  rw [ancestors]
  split
  · next hnone =>
    rw [h] at hnone
    cases hnone
  · next found hfound =>
    rw [h] at hfound
    cases hfound
    rfl

theorem ancestors_descend (h : root.isAbsolute) {name : Bytes} (hname : IsName name) :
    (root.descend (name :: names)).ancestors =
      (root.descend names).trimmed :: (root.descend names).trimmed.ancestors :=
  ancestors_of_parent? (parent?_child (isAbsolute_descend h names) hname)

end Path

end FileRouting.Disk
