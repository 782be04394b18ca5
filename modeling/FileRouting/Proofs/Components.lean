import FileRouting.Disk.Tree
import FileRouting.Proofs.AbsolutePaths

/-! # Components of paths

What the components of a path are, by the pieces that it is written with: the first piece counts in
its own way (`Component.ofFirst?`), the others by themselves.  So a plain name that is written
behind a path becomes its last component, whether the path is relative or absolute, empty, or ends
with a slash (`Path.components_child`), and so do names that are joined to it
(`Path.components_join`). -/

namespace FileRouting.Disk

/-- What the first piece of a path stands for, where it is not the whole of the empty path. -/
def Component.ofFirst? (first : Bytes) : Option Component :=
  if first = [] then some .root
  else if first = here then some .current
  else ofPiece? first

theorem Component.ofPiece?_eq_none_iff {piece : Bytes} :
    ofPiece? piece = none ↔ Path.isIdle piece = true := by
  by_cases hidle : piece = [] ∨ piece = here
  · simp [ofPiece?, Path.isIdle, hidle]
  · have hsome : ofPiece? piece ≠ none := by
      rw [ofPiece?, if_neg hidle]
      split <;> simp
    simpa [Path.isIdle, hidle] using hsome

/-- Whether a byte string is a component by its own name.  No limits of the system are meant, as
they are in `IsName`. -/
def IsPlainName (n : Bytes) : Prop := n ≠ [] ∧ slash ∉ n ∧ n ≠ here ∧ n ≠ above

instance (n : Bytes) : Decidable (IsPlainName n) :=
  inferInstanceAs (Decidable (_ ∧ _))

theorem IsName.isPlainName {n : Bytes} (h : IsName n) : IsPlainName n := by
  obtain ⟨hne, _, hslash, _, hhere, habove⟩ := h
  exact ⟨hne, hslash, hhere, habove⟩

theorem Component.ofPiece?_of_isPlainName {n : Bytes} (h : IsPlainName n) :
    ofPiece? n = some (.name n) := by
  obtain ⟨hne, _, hhere, habove⟩ := h
  simp [ofPiece?, hne, hhere, habove]

namespace Path

variable {p q : Path} {n first : Bytes} {body : List Bytes}

/-! ## Components by pieces -/

theorem slash_notMem_of_pieces (h : p.pieces = first :: body) :
    slash ∉ first ∧ ∀ piece ∈ body, slash ∉ piece := by
  have hslash : ∀ piece ∈ first :: body, slash ∉ piece := by
    rw [← h]
    exact fun piece => slash_notMem_of_mem_pieces
  exact List.forall_mem_cons.1 hslash

theorem components_of_pieces (h : p.pieces = first :: body) (hne : p.bytes ≠ []) :
    p.components = (Component.ofFirst? first).toList ++ body.filterMap Component.ofPiece? := by
  have hbytes := bytes_eq_of_pieces h
  cases first with
  | nil =>
      have habsolute : p.isAbsolute := by
        cases body with
        | nil => exact absurd hbytes hne
        | cons piece body => simp [isAbsolute, hbytes]
      rw [components, lead, if_pos habsolute, h, List.filterMap_cons_none (by decide)]
      rfl
  | cons b first =>
      have hb : b ≠ slash := fun heq => (slash_notMem_of_pieces h).1 (heq ▸ List.mem_cons_self ..)
      have habsolute : ¬ p.isAbsolute := by simp [isAbsolute, hbytes, hb]
      rw [components, lead, if_neg habsolute, h, List.head?_cons]
      by_cases hhere : b :: first = here
      · simp [hhere, Component.ofFirst?, Component.ofPiece?, here]
      · rw [if_neg (by simpa using hhere), Component.ofFirst?, if_neg (List.cons_ne_nil b first),
          if_neg hhere, List.filterMap_cons, List.nil_append]
        cases Component.ofPiece? (b :: first) <;> rfl

theorem components_empty : components ⟨[]⟩ = [] := by decide

theorem components_ofPieces (hfirst : slash ∉ first) (hbody : ∀ piece ∈ body, slash ∉ piece) :
    (ofPieces first body).components =
      (Component.ofFirst? first).toList ++ body.filterMap Component.ofPiece? := by
  by_cases hroot : first = [] ∧ body = []
  · obtain ⟨rfl, rfl⟩ := hroot
    decide
  · have hwritten : ofPieces first body = ⟨first ++ slashed body⟩ := by
      cases first with
      | nil =>
          cases body with
          | nil => exact absurd ⟨rfl, rfl⟩ hroot
          | cons piece body => rfl
      | cons b first => rfl
    rw [hwritten]
    refine components_of_pieces (pieces_ofPieces hfirst hbody) ?_
    cases first with
    | nil =>
        obtain ⟨piece, body, rfl⟩ := List.exists_cons_of_ne_nil fun hnil => hroot ⟨rfl, hnil⟩
        simp
    | cons b first => simp

/-! ## Names behind a path -/

/-- A name takes the place of the empty piece behind a slash at the end. -/
theorem exists_pieces_child (hne : p.bytes ≠ []) (hn : slash ∉ n) :
    ∃ first body idle, p.pieces = first :: (body ++ idle) ∧ (∀ piece ∈ idle, isIdle piece = true) ∧
      (p.child n).pieces = first :: (body ++ [n]) := by
  by_cases hend : p.endsWithSlash
  · obtain ⟨before, hbytes⟩ : ∃ before, p.bytes = before ++ [slash] :=
      List.getLast?_eq_some_iff.1 (by simpa [endsWithSlash] using hend)
    obtain ⟨first, body, hbefore⟩ :=
      List.exists_cons_of_ne_nil (List.splitOn_ne_nil slash before)
    have hpieces : p.pieces = before.splitOn slash ++ [[]] := by
      rw [pieces, hbytes]
      exact List.splitOn_append_cons_self before []
    have hchild : (p.child n).pieces = before.splitOn slash ++ [n] := by
      rw [child, if_pos (.inr hend), pieces, hbytes, List.append_assoc, List.singleton_append,
        List.splitOn_append_cons_self, List.splitOn_eq_singleton hn]
    exact ⟨first, body, [[]], by rw [hpieces, hbefore]; rfl, by simp [isIdle],
      by rw [hchild, hbefore]; rfl⟩
  · obtain ⟨first, body, hpieces⟩ := List.exists_cons_of_ne_nil (List.splitOn_ne_nil slash p.bytes)
    have hchild : (p.child n).pieces = p.pieces ++ [n] := by
      rw [child, if_neg (not_or.2 ⟨hne, hend⟩), pieces, List.splitOn_append_cons_self,
        List.splitOn_eq_singleton hn]
      rfl
    exact ⟨first, body, [], by rw [pieces, hpieces, List.append_nil], by simp,
      by rw [hchild, pieces, hpieces]; rfl⟩

theorem filterMap_ofPiece?_of_idle {pieces : List Bytes}
    (h : ∀ piece ∈ pieces, isIdle piece = true) : pieces.filterMap Component.ofPiece? = [] := by
  rw [List.filterMap_eq_nil_iff]
  exact fun piece hpiece => Component.ofPiece?_eq_none_iff.2 (h piece hpiece)

theorem components_child (p : Path) (hn : IsPlainName n) :
    (p.child n).components = p.components ++ [.name n] := by
  have hproper := Component.ofPiece?_of_isPlainName hn
  by_cases hnil : p.bytes = []
  · -- behind the empty path, the name is the first piece
    have hp : p = ⟨[]⟩ := by rw [← hnil]
    have hchild : (p.child n).bytes = n := by rw [child, if_pos (.inl hnil), hnil, List.nil_append]
    have hpieces : (p.child n).pieces = [n] := by
      rw [pieces, hchild, List.splitOn_eq_singleton hn.2.1]
    have hne : (p.child n).bytes ≠ [] := by
      rw [hchild]
      exact hn.1
    rw [components_of_pieces hpieces hne, Component.ofFirst?, if_neg hn.1, if_neg hn.2.2.1, hproper,
      hp, components_empty]
    rfl
  · obtain ⟨first, body, idle, hpieces, hidle, hchild⟩ := exists_pieces_child hnil hn.2.1
    have hne : (p.child n).bytes ≠ [] := by
      rw [bytes_eq_of_pieces hchild]
      simp
    rw [components_of_pieces hchild hne, components_of_pieces hpieces hnil, List.filterMap_append,
      List.filterMap_append, filterMap_ofPiece?_of_idle hidle, List.filterMap_cons_some hproper]
    simp

/-! ## Joined paths -/

/-- A plain name never replaces the path that it is joined to, and is one component more. -/
theorem components_join (p : Path) (hq : IsPlainName q.bytes) :
    (p.join q).components = p.components ++ [.name q.bytes] := by
  have hrelative : ¬ q.isAbsolute := by
    intro habsolute
    have hhead : q.bytes.head? = some slash := by simpa [isAbsolute] using habsolute
    exact hq.2.1 (List.mem_of_head? hhead)
  rw [join, if_neg hrelative, components_child p hq]

theorem components_foldl_join {names : List Bytes} (h : ∀ name ∈ names, IsPlainName name)
    (p : Path) :
    (names.foldl (fun directory name => directory.join ⟨name⟩) p).components =
      p.components ++ names.map .name := by
  induction names generalizing p with
  | nil => simp
  | cons name names ih =>
      rw [List.forall_mem_cons] at h
      rw [List.foldl_cons, ih h.2, components_join p h.1]
      simp

end Path

end FileRouting.Disk
